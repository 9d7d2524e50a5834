import Consensus.Proofs.Node.Enlisting
import Consensus.Proofs.World.Constitution
import Consensus.Proofs.World.Election

/-!
# What an approved change says of the cluster

An operator is told that its change is done when the entry of the change is applied,
or at once if the leader finds nothing to change.

In the first case the cluster had the new members at some moment between the question
and the answer: nobody had applied the entry before it was asked for.  In the second
case the leader speaks of the members that it has applied itself.  They are the
cluster's, unless a node of a later term has applied a membership that the leader does
not know of.  Such a leader cannot know that it was deposed, and a script shows that
it may approve of what is no longer true.
-/

namespace Consensus

variable {S : Scope}

/-- The membership that a change leads to needs the change no more. -/
theorem NodeSet.isUnchangedBy_withChange (members : NodeSet) (change : ServerChange) :
    (members.withChange change).isUnchangedBy change = true := by
  cases change with
  | add id => simp [withChange, isUnchangedBy]
  | remove id => simp [withChange, isUnchangedBy]

namespace Run

/-- An operator asks the node for the change under the ticket. -/
def Asks (r : Run S) (k id ticket : ℕ) (change : ServerChange) : Prop :=
  ∃ origin, r.action k = .event id (.change ticket change) origin

/-- Under the ticket the node tells that a change is done. -/
def Approves (r : Run S) (k id ticket : ℕ) : Prop :=
  ∃ reply : ChangeReply, reply.status = .ok ∧
    r.Releases k id (.answer ticket (.change reply))

/-- At some moment, from the one when the change is asked for to the one after the
answer, the cluster has members as the change wants them. -/
def Reflects (r : Run S) (asked answered : ℕ) (change : ServerChange) : Prop :=
  ∃ j members, asked ≤ j ∧ j ≤ answered + 1 ∧ r.Constitutes j members ∧
    members.isUnchangedBy change = true

/-- Since the node was asked for the change under the ticket, the cluster had members as
the change wants them. -/
def Justified (r : Run S) (k id ticket : ℕ) : Prop :=
  ∃ a change, a ≤ k ∧ r.Asks a id ticket change ∧ r.Reflects a k change

/-- The leader has the members that the change wants, and waits for no others. -/
structure Content (r : Run S) (k id : ℕ) (change : ServerChange) (n : Node Memory) :
    Prop where
  up : r.Up k id n
  role : n.standing.role = .leader
  free : n.membership.pending.isSome = false
  same : n.membership.committed.isUnchangedBy change = true

/-- The leader appends what the change leads to at the index, and lets the operator
wait. -/
def Proposes (r : Run S) (k id index : ℕ) (w : Waiter) (change : ServerChange) : Prop :=
  ∃ n, r.Asks k id w.ticket change ∧ r.Up k id n ∧ n.standing.role = .leader ∧
    n.membership.pending.isSome = false ∧
    n.membership.committed.isUnchangedBy change = false ∧
    w.term = n.standing.currentTerm ∧ index = n.log.lastIndex + 1

/-- Whoever waits at the node at the moment was let wait before it. -/
def Listed (r : Run S) (k id index : ℕ) (w : Waiter) : Prop :=
  ∃ a < k, ∃ change, r.Proposes a id index w change

/-- Whoever is in the midst of the event: who waited before it, or is let wait. -/
def Enrolled (r : Run S) (k id : ℕ) (n : Node Memory) (index : ℕ) (w : Waiter) : Prop :=
  n.changeWaiters.get? index = some w ∨ ∃ change, r.Proposes k id index w change

variable {r : Run S} {ledger : ℕ → Ledger} {k id ticket index : ℕ} {event : Event}
  {origin : Option Origin} {n n' : Node Memory} {w : Waiter} {change : ServerChange}

/-! ## Waiting for a change -/

theorem Listed.succ (h : r.Listed k id index w) : r.Listed (k + 1) id index w := by
  obtain ⟨a, hlt, hproposes⟩ := h
  exact ⟨a, hlt.trans (Nat.lt_succ_self k), hproposes⟩

/-- How a node deals with operators at an event: only those wait after it who waited
before or are let wait.  Whoever is told that its change is done is one of them, and its
index is applied, or it came with the event and found a leader that has nothing to
change. -/
structure Deals (r : Run S) (k id : ℕ) (event : Event) (n n' : Node Memory) : Prop where
  enlists : n'.Enlists (r.Enrolled k id n)
  approved : ∀ ticket reply, .answer ticket (.change reply) ∈ n'.effects →
    reply.status = .ok →
      (∃ index w, r.Enrolled k id n index w ∧ w.ticket = ticket ∧
        w.term = n'.standing.currentTerm ∧ index ≤ n'.standing.lastApplied) ∨
      ∃ change, event = .change ticket change ∧ r.Content k id change n

theorem deals_of_fulfils (h : n'.Fulfils (r.Enrolled k id n)) :
    r.Deals k id event n n' where
  enlists := h.enlists
  approved ticket reply hin hok := Or.inl (h.done ticket reply hin hok)

theorem Account.deals (h : r.Account ledger) (hlisted : n.Enlists (r.Listed k id))
    (haction : r.action k = .event id event origin) (hup : r.Up k id n)
    (hrun : Node.handle event n = .ok () n') : r.Deals k id event n n' := by
  have hsaved : n.Saved := (h.ready hup).settled.persisted
  have hnew := (h.attending k id n hup).1
  have hundone : n.Undone := Node.undone_of_new hnew
  have hhere : n.Enlists (r.Enrolled k id n) := fun index w hw =>
    (hlisted index w hw).imp_right fun hrest => hrest.imp_right fun _ => Or.inl hw
  by_cases hchange : ∃ ticket change, event = .change ticket change
  · obtain ⟨asked, change, rfl⟩ := hchange
    cases Node.handle_change hsaved hrun with
    | refuses leader =>
        refine deals_of_fulfils (Node.Undone.fulfils (fun ticket reply hin => ?_)
          (hhere.of_same rfl rfl rfl))
        rcases Node.answer_mem_emit hin with hbefore | hsame
        · exact hundone ticket reply hbefore
        · obtain ⟨-, hreply⟩ := Effect.answer.inj hsame
          rw [← Answer.change.inj hreply]
          exact ChangeStatus.noConfusion
    | keeps hrole hfree hsame =>
        refine ⟨hhere.of_same rfl rfl rfl, fun ticket reply hin hok => ?_⟩
        rcases Node.answer_mem_emit hin with hbefore | hnow
        · exact absurd hok (hundone ticket reply hbefore)
        · obtain ⟨rfl, -⟩ := Effect.answer.inj hnow
          exact Or.inr ⟨change, rfl, hup, hrole, hfree, hsame⟩
    | proposes hrole hfree hchanges hlog hsettling =>
        have hproposes : r.Proposes k id (n.log.lastIndex + 1)
            ⟨n.standing.currentTerm, asked⟩ change :=
          ⟨n, ⟨origin, haction⟩, hup, hrole, hfree, hchanges, rfl, rfl⟩
        refine deals_of_fulfils (hsettling.fulfils ?_ hundone.enlisting (by simp))
        exact hhere.enlisting hrole (Or.inr ⟨change, hproposes⟩)
  · have hcourse := (Node.handle_runs hsaved event).ok hrun
    exact deals_of_fulfils (hcourse.fulfils hhere hundone fun ticket change heq =>
      hchange ⟨ticket, change, heq⟩)

/-- Everybody who waits for a change was let wait before. -/
theorem Account.listed (h : r.Account ledger) (hup : r.Up k id n) :
    n.Enlists (r.Listed k id) := by
  refine keeps_of_up (P := fun k id n => n.Enlists (r.Listed k id)) hup ?_ ?_ ?_
  · intro k id n settings d d' hrun
    have hnew := (Node.ensures_recover_isNew settings d).ok hrun
    refine Node.enlists_of_none fun index => ?_
    rw [hnew.changeWaiters]
    exact Table.get?_empty index
  · intro k id n hlisted
    exact hlisted.mono fun _ _ => .succ
  · intro k id event origin n n' haction hup hrun hlisted
    have henlists := (h.deals hlisted haction hup hrun).enlists
    refine Node.Enlists.of_same (henlists.mono fun index w hw => ?_) rfl rfl rfl
    rcases hw with hold | ⟨change, hnow⟩
    · exact (hlisted index w hold).2.2.succ
    · exact ⟨k, Nat.lt_succ_self k, change, hnow⟩

/-- A node that fails has told nobody that a change is done. -/
theorem Account.undone_of_error (h : r.Account ledger)
    (haction : r.action k = .event id event origin) (hup : r.Up k id n) {e : Error}
    (hrun : Node.handle event n = .error e n') : n'.Undone := by
  have hundone := Node.undone_of_new (h.attending k id n hup).1
  obtain ⟨ticket, request, m, rfl, hcourse, hfails⟩ :=
    h.installs_of_error haction hup hrun
  have hm := hcourse.undone_of_install (h.ready hup).settled.applied hundone
  exact fun told reply hin => hm told reply (hfails.effects.subset hin)

/-! ## The entry of a change -/

/-- A leader appends a change right after all that the leader of its term had. -/
theorem Account.proposes (h : r.Account ledger)
    (hproposes : r.Proposes k id index w change) :
    ((ledger k).lead w.term).length + 1 = index ∧
      ∃ e members, e.term = w.term ∧ e.config? = some members ∧
        members.isUnchangedBy change = true ∧
        ((ledger (k + 1)).log id)[index - 1]? = some e ∧
        ((ledger (k + 1)).lead w.term)[index - 1]? = some e := by
  obtain ⟨n, ⟨origin, haction⟩, hup, hrole, hfree, hchanges, hterm, rfl⟩ := hproposes
  have hready := h.ready hup
  have htracks := hready.tracks
  have hlast := htracks.journal.log.lastIndex_eq ((h.accounted k).numbered id)
  refine ⟨?_, ?_⟩
  · rw [hterm, htracks.term, (htracks.leader hrole).lead, hlast]
  -- with enough room the entry stays in the log
  obtain ⟨n', hrun, -⟩ := h.handles haction hup not_false
  obtain ⟨commit, hadvances⟩ := (h.accounts k).advances _ _ _ _ haction hup
  obtain ⟨threshold, m, hrun', -, hready', hstart⟩ := hadvances.uncompacted hrun
  have hends := h.endsAt hup
  have hroom : m.log.snapshotIndex < n.log.lastIndex + 1 := by
    unfold Log.EndsAt at hends
    change m.log.snapshotIndex = n.log.snapshotIndex at hstart
    omega
  have hsaved : (n.withThreshold threshold).Saved := hready.settled.persisted
  have hget := Node.get?_of_handle_change hsaved hrun' hrole hfree hchanges hends hroom
  have hlog := hready'.log_of_get? hget
  rw [hterm]
  exact ⟨_, _, rfl, rfl, NodeSet.isUnchangedBy_withChange _ _, hlog,
    (h.sound (k + 1)).lead_of_log hlog⟩

/-- Nobody has applied the entry of a change before the change is asked for. -/
theorem Account.unapplied_of_proposes (h : r.Account ledger) {a : ℕ} {e : Entry}
    (hproposes : r.Proposes a id index w change) (hterm : e.term = w.term)
    {other : ℕ} (happlied : r.Applied k other index e) : r.Unapplied a index := by
  intro x f hf
  obtain rfl : f = e := h.applied_unique hf happlied
  have hlength := (h.settledAt hf).le_length (h.sound a)
  rw [hterm] at hlength
  have hbefore := (h.proposes hproposes).1
  omega

/-- A membership that was asked for before it was applied became the cluster's on the
way. -/
theorem Account.reflects_of_applied (h : r.Account ledger) {a : ℕ} {e : Entry}
    {members : NodeSet} (hproposes : r.Proposes a id index w change)
    (hterm : e.term = w.term) (hconfig : e.config? = some members)
    (hsame : members.isUnchangedBy change = true)
    (happlied : r.Applied (k + 1) id index e) : r.Reflects a k change := by
  obtain ⟨j, hle, hfound, hconstitutes⟩ := h.exists_constitutes happlied hconfig
  refine ⟨j, members, ?_, hle, hconstitutes, hsame⟩
  by_contra hlt
  have hnone := h.unapplied_of_proposes hproposes hterm happlied
  exact hfound (hnone.of_le (not_le.mp hlt).le)

/-- Whoever waited for an index that is applied now has asked for what became the
cluster's since. -/
theorem Account.reflects_of_enrolled (h : r.Account ledger)
    (haction : r.action k = .event id event origin) (hup : r.Up k id n)
    (hrun : Node.handle event n = .ok () n') (henrolled : r.Enrolled k id n index w)
    (hterm : w.term = n'.standing.currentTerm)
    (hle : index ≤ n'.standing.lastApplied) :
    r.Justified k id w.ticket := by
  have hafter := up_of_handled haction hup hrun
  obtain ⟨a, change, hmoment, hproposes, hkept⟩ : ∃ a change, a ≤ k ∧
      r.Proposes a id index w change ∧ ∀ e, 0 < index →
        ((ledger (a + 1)).log id)[index - 1]? = some e →
        ((ledger (a + 1)).lead w.term)[index - 1]? = some e →
        ((ledger (k + 1)).log id)[index - 1]? = some e := by
    rcases henrolled with hold | ⟨change, hnow⟩
    · obtain ⟨hrole, hsame, a, hlt, change, hproposes⟩ := h.listed hup index w hold
      refine ⟨a, change, hlt.le, hproposes, fun e hpos _ hlead => ?_⟩
      -- the node has led ever since, so it has all that was appended
      exact h.get?_of_led hlt hup hrole hsame (h.ready hafter) hterm hpos hlead
    · exact ⟨k, change, le_rfl, hnow, fun _ _ hlog _ => hlog⟩
  obtain ⟨hbefore, e, members, heterm, hconfig, hsame, hlog, hlead⟩ :=
    h.proposes hproposes
  have hpos : 0 < index := by omega
  have happlied : r.Applied (k + 1) id index e :=
    (h.applied_iff hafter hpos hle).mpr (hkept e hpos hlog hlead)
  have hreflects := h.reflects_of_applied hproposes heterm hconfig hsame happlied
  obtain ⟨-, hasks, -⟩ := hproposes
  exact ⟨a, change, hmoment, hasks, hreflects⟩

/-! ## What an approval says -/

/-- An approval is earned, or given at once by a leader that has nothing to change. -/
theorem Account.approved (h : r.Account ledger) (happroves : r.Approves k id ticket) :
    r.Justified k id ticket ∨
      ∃ change n, r.Asks k id ticket change ∧ r.Content k id change n := by
  obtain ⟨reply, hok, event, origin, n, n', haction, hup, hends, hin⟩ := happroves
  rcases hends with hrun | ⟨e, hrun⟩
  · have hdeals := h.deals (h.listed hup) haction hup hrun
    rcases hdeals.approved ticket reply hin hok with
      ⟨index, w, henrolled, rfl, hterm, hle⟩ | ⟨change, rfl, hcontent⟩
    · exact Or.inl (h.reflects_of_enrolled haction hup hrun henrolled hterm hle)
    · exact Or.inr ⟨change, n, ⟨origin, haction⟩, hcontent⟩
  · exact absurd hok (h.undone_of_error haction hup hrun ticket reply hin)

/-- Where no start leaves more than one membership unapplied, an operator who is told
that its change is done knows that the cluster had the members that it wanted at some
moment since it asked, unless it was told at once by a leader that has applied such
members, and that a node of a later term has overtaken. -/
theorem approves_reflects (r : Run S) (hleaves : r.Leaves 1)
    (happroves : r.Approves k id ticket) :
    r.Justified k id ticket ∨
      ∃ change n, r.Asks k id ticket change ∧ r.Content k id change n ∧
        r.Overtakes k n ∧ ∃ j ≤ k, r.Constitutes j n.membership.committed := by
  obtain ⟨ledger, h⟩ := r.exists_account (Or.inr hleaves)
  rcases h.approved happroves with hearned | ⟨change, n, hasks, hcontent⟩
  · exact Or.inl hearned
  · rcases h.constitutes_or_overtakes hcontent.up hcontent.role hcontent.free with
      hconstitutes | hovertakes
    · exact Or.inl ⟨k, change, le_rfl, hasks, k, _, le_rfl, Nat.le_succ k, hconstitutes,
        hcontent.same⟩
    · exact Or.inr ⟨change, n, hasks, hcontent, hovertakes,
        h.exists_constitutes_committed hcontent.up hcontent.role⟩

/-! ## A leader that does not know -/

/-- A test that the node approves of a change under the ticket. -/
def approves (w : World) (id ticket : ℕ) : Action → Bool
  | .event other event _ => id = other ∧ (w.place id).passes fun n =>
    match Node.handle event n with
    | .ok () n' => n'.effects.any fun
      | .answer told (.change reply) => told = ticket ∧ reply.status = .ok
      | _ => false
    | .error _ _ => false
  | _ => false

theorem approves_of_test (h : approves (r.world k) id ticket (r.action k) = true) :
    r.Approves k id ticket := by
  unfold approves at h
  split at h
  · next other event origin haction =>
    obtain ⟨rfl, hpasses⟩ := of_decide_eq_true h
    obtain ⟨n, hup, htest⟩ := Place.exists_up_of_passes hpasses
    split at htest
    · next n' hrun =>
      obtain ⟨effect, hin, hsays⟩ := List.any_eq_true.mp htest
      split at hsays
      · next told reply =>
        obtain ⟨rfl, hok⟩ := of_decide_eq_true hsays
        exact ⟨reply, hok, event, origin, n, n', haction, hup, Or.inl hrun, hin⟩
      · exact absurd hsays Bool.false_ne_true
    · exact absurd htest Bool.false_ne_true
  · exact absurd h Bool.false_ne_true

/-- Node 1 is elected, and then node 2 is by node 3, without node 1 hearing of it.
Node 2 removes node 3, which votes for its own removal, and then node 1 is asked to
add node 3. -/
def deposed : List Move :=
  let settings (id : ℕ) : Settings := { nodeId := id, members := [1, 2, 3] }
  [.start 1 (settings 1), .start 2 (settings 2), .start 3 (settings 3),
    .campaign 1, .deliver 0 20, .deliver 2 0,
    .campaign 2, .deliver 6 21, .deliver 7 0,
    .change 2 30 (.remove 3), .deliver 9 22, .deliver 10 0, .deliver 11 23, .deliver 12 0,
    .change 1 31 (.add 3)]

/-- What becomes of a cluster of three. -/
def ofDeposed : Run (.changes (.ofList [1, 2, 3])) := .ofScript _ deposed

/-- The node that a line starts. -/
def starter? : Move → Option ℕ
  | .start id _ => some id
  | _ => none

theorem start_deposed {settings : Settings} {recorder : Recorder}
    (haction : ofDeposed.action k = .start id settings recorder) :
    k < 3 ∧ id = k + 1 := by
  obtain ⟨given, hmove⟩ := move_of_start haction
  have hall : (deposed.zipIdx.all fun line => (starter? line.1).all fun id =>
      line.2 < 3 ∧ id = line.2 + 1) = true := by decide
  have hmem : (Move.start id given, k) ∈ deposed.zipIdx :=
    List.mk_mem_zipIdx_iff_getElem?.mpr hmove
  exact of_decide_eq_true (List.all_eq_true.mp hall _ hmem)

theorem startsOnce_deposed : ofDeposed.StartsOnce := by
  intro j k id _ _ _ _ hj hk
  have hindex := (start_deposed hj).2
  have hindex' := (start_deposed hk).2
  omega

/-- The node that is asked, the ticket and the change that it is asked for. -/
def asked? : Action → Option (ℕ × ℕ × ServerChange)
  | .event id (.change ticket change) _ => some (id, ticket, change)
  | _ => none

theorem asks_deposed {a : ℕ} (hasks : ofDeposed.Asks a id ticket change) :
    (a, id, ticket, change) ∈ [(9, 2, 30, .remove 3), (14, 1, 31, .add 3)] := by
  obtain ⟨origin, haction⟩ := hasks
  have hlt : a < deposed.length := by
    by_contra hle
    have hnone : deposed[a]? = none := List.getElem?_eq_none (not_lt.mp hle)
    simp [ofDeposed, Run.ofScript, hnone] at haction
  have hall : ((List.range deposed.length).all fun a =>
      (asked? (ofDeposed.action a)).all fun asked =>
        (a, asked) ∈ [(9, 2, 30, .remove 3), (14, 1, 31, .add 3)]) = true := by cbv
  have hnow := List.all_eq_true.mp hall a (List.mem_range.mpr hlt)
  rw [haction] at hnow
  exact of_decide_eq_true hnow

/-- Nobody ever applies more than two entries. -/
theorem lastApplied_deposed (hup : ofDeposed.Up k id n) (hle : k ≤ 15) :
    n.standing.lastApplied ≤ 2 := by
  obtain ⟨j, -, settings, recorder, haction⟩ := exists_start_of_up hup
  have hid : id ∈ [1, 2, 3] := by
    obtain ⟨hlt, rfl⟩ := start_deposed haction
    simp only [List.mem_cons, List.not_mem_nil, or_false]
    omega
  have hall : ((List.range 16).all fun k => [1, 2, 3].all fun id =>
      appliedAt ((ofDeposed.world k).place id) ≤ 2) = true := by cbv
  have hnow := List.all_eq_true.mp (List.all_eq_true.mp hall k
    (List.mem_range.mpr (Nat.lt_succ_of_le hle))) id hid
  have hnow := of_decide_eq_true hnow
  rwa [show (ofDeposed.world k).place id = .up n from hup] at hnow

/-- Once node 2 has removed node 3, the cluster is without it. -/
theorem constitutes_deposed {j : ℕ} {members : NodeSet}
    (hconstitutes : ofDeposed.Constitutes j members) (hle : 14 ≤ j) (hle' : j ≤ 15) :
    members = .ofList [1, 2] := by
  obtain ⟨ledger, h⟩ := ofDeposed.exists_account
    (Or.inr (startsOnce_deposed.leaves.mono zero_le_one))
  have hremoved : ((ofDeposed.world 14).place 2).passes (fun n =>
      2 ≤ n.standing.lastApplied ∧
        (n.log.get? 2).bind Entry.config? = some (.ofList [1, 2])) = true := by cbv
  obtain ⟨n, hup, hn⟩ := Place.exists_up_of_passes hremoved
  obtain ⟨hreached, hlogged⟩ := of_decide_eq_true hn
  obtain ⟨e, hget, hconfig⟩ := Option.bind_eq_some_iff.mp hlogged
  have happlied := (h.applied_of_get? hup hget two_pos hreached).mono hle
  cases hconstitutes with
  | initial hnone =>
      exact absurd ((hnone _ _ _ happlied).symm.trans hconfig) (by simp)
  | applied hother hnamed hlast =>
      have hmost := hlast _ _ _ happlied (Option.isSome_of_eq_some hconfig)
      obtain ⟨i, hij, m, hm, hfar⟩ := h.exists_up_of_applied hother
      have hfew := lastApplied_deposed hm (hij.trans hle')
      obtain rfl : _ = 2 := le_antisymm (hfar.trans hfew) hmost
      obtain rfl := h.applied_unique hother happlied
      exact Option.some.inj (hnamed.symm.trans hconfig)

/-- The deposed leader approves of what is not so any more. -/
theorem not_justified_deposed :
    ofDeposed.StartsOnce ∧ ofDeposed.Approves 14 1 31 ∧ ¬ ofDeposed.Justified 14 1 31 := by
  refine ⟨startsOnce_deposed, approves_of_test (by cbv), ?_⟩
  rintro ⟨a, change, hle, hasks, j, members, hfrom, hto, hconstitutes, hsame⟩
  have hasked := asks_deposed hasks
  simp only [List.mem_cons, List.not_mem_nil, or_false, Prod.mk.injEq] at hasked
  rcases hasked with ⟨-, hid, -⟩ | ⟨rfl, -, -, rfl⟩
  · exact absurd hid (by decide)
  · obtain rfl := constitutes_deposed hconstitutes hfrom hto
    exact absurd hsame (by decide)

/-- Node 2 approves of the removal when the cluster is without node 3. -/
theorem approves_reflects_removal :
    ofDeposed.Leaves 1 ∧ ofDeposed.Approves 13 2 30 ∧
      ofDeposed.Reflects 9 13 (.remove 3) := by
  have hleaves : ofDeposed.Leaves 1 := startsOnce_deposed.leaves.mono zero_le_one
  have happroves : ofDeposed.Approves 13 2 30 := approves_of_test (by cbv)
  refine ⟨hleaves, happroves, ?_⟩
  rcases approves_reflects ofDeposed hleaves happroves with
    ⟨a, change, hle, hasks, hreflects⟩ | ⟨change, n, hasks, -⟩
  · have hasked := asks_deposed hasks
    simp only [List.mem_cons, List.not_mem_nil, or_false, Prod.mk.injEq] at hasked
    rcases hasked with ⟨rfl, -, -, rfl⟩ | ⟨-, hid, -⟩
    · exact hreflects
    · exact absurd hid (by decide)
  · have hasked := asks_deposed hasks
    simp at hasked

end Run

end Consensus
