import Consensus.Proofs.Node.Resuming
import Consensus.Proofs.World.Account
import Consensus.Proofs.World.Script

/-!
# One leader a term

A node that leads was elected, and the ledger keeps who was.  So two nodes that
lead in one term, at whatever moments of a run and after however many restarts,
are the same.

Where the members stay this holds of every run.  Where they change it depends on
what a start leaves: a node that starts forgets the memberships that neither its
snapshot nor its consumer has applied, and stands for those that it was set up
with.  One forgotten membership does no harm, for its majorities meet those of
the one before.  Two can: the forgetful node may then be a majority that nobody
else knows of, and a script shows it.
-/

namespace Consensus

variable {S : Scope}

namespace Run

variable {r : Run S} {ledger : ℕ → Ledger} {j k a b : ℕ} {n m : Node Memory}

/-- No two nodes ever lead in one term. -/
def OneLeader (r : Run S) : Prop :=
  ∀ j k a b n m, r.Up j a n → r.Up k b m → n.standing.role = .leader →
    m.standing.role = .leader →
    n.standing.currentTerm = m.standing.currentTerm → a = b

/-- A node that leads was elected in its term. -/
theorem Account.elected (h : r.Account ledger) (hup : r.Up k a n)
    (hrole : n.standing.role = .leader) :
    ∃ e, (ledger k).election n.standing.currentTerm = some e ∧ e.leader = a := by
  have htracks := (h.ready hup).tracks
  rw [htracks.term]
  exact (htracks.leader hrole).elected

/-- Who is accounted for was elected only once. -/
theorem Account.oneLeader (h : r.Account ledger) : r.OneLeader := by
  intro j k a b n m ha hb hn hm hterm
  obtain ⟨e, he, hea⟩ := h.elected ha hn
  obtain ⟨f, hf, hfb⟩ := h.elected hb hm
  -- the later ledger has both elections
  have he' := (h.grows (le_max_left j k)).election _ e he
  have hf' := (h.grows (le_max_right j k)).election _ f hf
  rw [hterm] at he'
  have hsame : e = f := Option.some.inj (he'.symm.trans hf')
  rw [← hea, ← hfb, hsame]

/-- Where the members stay, no two nodes ever lead in one term. -/
theorem oneLeader_of_stays {members : NodeSet} (r : Run (.stays members)) :
    r.OneLeader := by
  obtain ⟨ledger, h⟩ := r.exists_account (Or.inl trivial)
  exact h.oneLeader

/-! ## Forgotten memberships -/

/-- Nobody starts a second time. -/
def StartsOnce (r : Run S) : Prop :=
  ∀ j k id settings settings' recorder recorder',
    r.action j = .start id settings recorder →
      r.action k = .start id settings' recorder' → j = k

/-- Where a node never started is still what was there in the beginning. -/
theorem place_of_unstarted {id : ℕ}
    (hnone : ∀ j < k, ∀ settings recorder, r.action j ≠ .start id settings recorder) :
    (r.world k).place id = (r.world 0).place id := by
  induction k with
  | zero => rfl
  | succ k ih =>
      have hsame := ih fun j hlt => hnone j (hlt.trans (Nat.lt_succ_self k))
      obtain ⟨recorder, -, hdown⟩ := r.initial.place id
      have hnot : ∀ n, (r.world k).place id ≠ .up n := by
        intro n hup
        rw [hsame, hdown] at hup
        exact absurd hup (by simp)
      have hnow := hnone k (Nat.lt_succ_self k)
      have hstep := r.step k
      generalize r.action k = action at hnow hstep
      generalize r.world (k + 1) = w' at hstep
      rw [← hsame]
      cases hstep with
      | handled hup | failed hup =>
          refine World.place_after_of_ne _ _ _ _ ?_
          rintro rfl
          exact hnot _ hup
      | stopped hup =>
          refine World.place_put_of_ne _ _ ?_
          rintro rfl
          exact hnot _ hup
      | started | refused =>
          refine World.place_put_of_ne _ _ ?_
          rintro rfl
          exact hnow _ _ rfl
      | idle => rfl

/-- Whoever is up has started. -/
theorem exists_start_of_up {id : ℕ} (hup : r.Up k id n) :
    ∃ j < k, ∃ settings recorder, r.action j = .start id settings recorder := by
  by_contra hnone
  have hsame := place_of_unstarted fun j hlt settings recorder haction =>
    hnone ⟨j, hlt, settings, recorder, haction⟩
  obtain ⟨recorder, -, hdown⟩ := r.initial.place id
  exact absurd (hup.symm.trans (hsame.trans hdown)) (by simp)

/-- A node that starts for the first time has nothing in its log. -/
theorem StartsOnce.leaves (h : r.StartsOnce) : r.Leaves 0 := by
  intro k
  cases haction : r.action k with
  | start id settings recorder =>
      intro n hup
      have hsame : (r.world k).place id = (r.world 0).place id :=
        place_of_unstarted fun j hlt _ _ hearlier =>
          hlt.ne (h j k id _ _ _ _ hearlier haction)
      obtain ⟨old, -, hdown⟩ := r.initial.place id
      have hstep := r.step k
      rw [haction] at hstep
      generalize r.world (k + 1) = w' at hstep hup
      cases hstep with
      | @started _ _ _ d d' m hplace hallows hreplaces hrun =>
          rw [World.place_put_self] at hup
          obtain rfl := Place.up.inj hup
          obtain rfl := Place.down.inj (hplace.symm.trans (hsame.trans hdown))
          rw [((Node.ensures_recover _ _).ok hrun).log]
          exact le_rfl
      | refused =>
          rw [World.place_put_self] at hup
          exact absurd hup (by simp)
  | _ => trivial

/-- A test that the starts of a script pass: no node starts with more than so
many memberships in its log that it has not applied. -/
def startsLeave (S : Scope) [Decidable S.fixed] (script : List Move)
    (bound : ℕ) : Bool :=
  script.zipIdx.all fun
    | (.start id _, k) =>
      ((World.scripted S script (k + 1)).place id).passes fun n =>
        changes (n.log.entriesAfter n.standing.lastApplied) ≤ bound
    | _ => true

theorem move_of_start [Decidable S.fixed] {script : List Move} {id : ℕ}
    {settings : Settings} {recorder : Recorder}
    (haction : (Run.ofScript S script).action k = .start id settings recorder) :
    ∃ given, script[k]? = some (.start id given) := by
  cases hmove : script[k]? with
  | none => simp [Run.ofScript, hmove] at haction
  | some move =>
      have hfollow : ((World.scripted S script k).follow S move).1
          = .start id settings recorder := by
        simpa only [Run.ofScript, hmove] using haction
      obtain ⟨given, rfl⟩ := World.start_of_follow S hfollow
      exact ⟨given, rfl⟩

theorem leaves_of_startsLeave [Decidable S.fixed] {script : List Move}
    {bound : ℕ} (h : startsLeave S script bound = true) :
    (Run.ofScript S script).Leaves bound := by
  intro k
  cases haction : (Run.ofScript S script).action k with
  | start id settings recorder =>
      intro n hup
      obtain ⟨given, hmove⟩ := move_of_start haction
      have hmem : (Move.start id given, k) ∈ script.zipIdx :=
        List.mk_mem_zipIdx_iff_getElem?.mpr hmove
      have hpasses := List.all_eq_true.mp h _ hmem
      exact of_decide_eq_true (Place.of_passes hpasses hup)
  | _ => trivial

/-- Node 1 is a cluster of its own.  It adds nodes 2 and 3, and then starts with a
fresh consumer, so that it forgets both.  Nodes 2 and 3 elect a leader, and node
1 elects itself. -/
def forgetful : List Move :=
  let alone : Settings := { nodeId := 1, members := [1] }
  let added (id : ℕ) : Settings := { nodeId := id, members := [] }
  [.start 1 alone, .start 2 (added 2), .start 3 (added 3), .campaign 1,
    -- node 2 gets the log, and then node 3 does
    .change 1 10 (.add 2), .deliver 0 20, .deliver 1 0, .deliver 2 21, .deliver 3 0,
    .change 1 11 (.add 3), .deliver 4 22, .deliver 6 0,
    -- node 2 learns that both are members
    .heartbeat 1, .deliver 7 23,
    .stop 1, .start 1 alone,
    -- node 3 votes for node 2
    .campaign 2, .deliver 10 24, .deliver 11 0, .campaign 1]

theorem leaves_forgetful :
    (Run.ofScript (.changes (.ofList [1])) forgetful).Leaves 2 := by
  apply leaves_of_startsLeave
  cbv

/-- At the end both lead in term 2. -/
theorem not_oneLeader_forgetful :
    ¬ (Run.ofScript (.changes (.ofList [1])) forgetful).OneLeader := by
  intro h
  have hleads : ∀ id ∈ [1, 2],
      ((World.scripted (.changes (.ofList [1])) forgetful 20).place id).passes
        (fun n => n.standing.role = .leader ∧ n.standing.currentTerm = 2) = true := by
    intro id hid
    rcases List.mem_pair.mp hid with rfl | rfl
    · cbv
    · cbv
  obtain ⟨n, hn, hnleads⟩ := Place.exists_up_of_passes (hleads 1 (by simp))
  obtain ⟨m, hm, hmleads⟩ := Place.exists_up_of_passes (hleads 2 (by simp))
  obtain ⟨hnrole, hnterm⟩ := of_decide_eq_true hnleads
  obtain ⟨hmrole, hmterm⟩ := of_decide_eq_true hmleads
  have hsame := h 20 20 1 2 n m hn hm hnrole hmrole (hnterm.trans hmterm.symm)
  exact absurd hsame (by decide)

/-- Where the members change, no two nodes ever lead in one term, exactly if no
start leaves more than one membership in the log unapplied. -/
theorem oneLeader_of_leaves_iff (bound : ℕ) :
    (∀ members, ∀ r : Run (.changes members), r.Leaves bound → r.OneLeader) ↔
      bound ≤ 1 := by
  constructor
  · intro h
    by_contra hmany
    have hleaves := (leaves_forgetful).mono (by omega : 2 ≤ bound)
    exact not_oneLeader_forgetful (h _ _ hleaves)
  · intro hle members r hleaves
    obtain ⟨ledger, h⟩ := r.exists_account (Or.inr (hleaves.mono hle))
    exact h.oneLeader

end Run

end Consensus
