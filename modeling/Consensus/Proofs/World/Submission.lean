import Consensus.Proofs.Node.Waiting
import Consensus.Proofs.World.Applied

/-!
# Commands are submitted in order

A caller holds a ticket, hands its command to some node under it, and may be told
under the same ticket at which index the command was applied.  Where the members
stay, these indices respect real time: what was handed in after an answer gets a
higher index than that answer, and no two callers ever get the same one,
whichever nodes they asked and whichever of them led or thought that it led.

A leader appends a command at the end of its log, which is all that the leader of
its term ever had.  So an index that is settled already is behind it.
-/

namespace Consensus

/-! ## Settled indices -/

namespace Ledger

variable {S : Scope} {ℓ : Ledger} {id index : ℕ} {e : Entry}

/-- Whatever the leader of a term acknowledged to itself stays in its log as long as
its term lasts. -/
theorem Sound.kept_of_term (hsound : ℓ.Sound S) {term : ℕ}
    (hterm : ℓ.term id = term) (hpos : 0 < index)
    (hheld : index ≤ ℓ.held id term)
    (hget : (ℓ.lead term)[index - 1]? = some e) :
    (ℓ.log id)[index - 1]? = some e := by
  rcases (hsound.node id).kept term index hheld with hle | hover
  · refine getElem?_of_isPrefix hle ?_
    rw [List.getElem?_take_of_lt (by omega)]
    exact hget
  · obtain ⟨later, election, hlt, hbound, -⟩ := hover
    omega

/-- What is in any log was in the log of the leader of its term. -/
theorem Sound.lead_of_log (hsound : ℓ.Sound S) {p : ℕ}
    (hget : (ℓ.log id)[p]? = some e) : (ℓ.lead e.term)[p]? = some e := by
  refine getElem?_of_isPrefix ((hsound.node id).grounded p e hget) ?_
  rw [List.getElem?_take_of_lt (Nat.lt_succ_self p)]
  exact hget

/-- What is settled is in the log of the leader of its term. -/
theorem SettledAt.le_length (h : ℓ.SettledAt S index e) (hsound : ℓ.Sound S) :
    index ≤ (ℓ.lead e.term).length := by
  obtain ⟨bound, entries, hsettled, hpos, hget⟩ := h
  rcases hsettled with rfl | ⟨term, length, -, hchosen, hle⟩
  · exact absurd hget (by simp)
  · have hlead := getElem?_of_isPrefix
      (hle.trans (List.take_prefix length _)) hget
    have hprefix := (hsound.lead term).grounded _ e hlead
    have hbound := (List.getElem?_eq_some_iff.mp hlead).1
    have hlength := hprefix.length_le
    rw [List.length_take] at hlength
    omega

/-- Up to an index that is settled, everything is. -/
theorem SettledAt.exists_of_le {before : ℕ}
    (h : ℓ.SettledAt S index e) (hpos : 0 < before) (hle : before ≤ index) :
    ∃ e', ℓ.SettledAt S before e' := by
  obtain ⟨bound, entries, hsettled, -, hget⟩ := h
  have hlength := (List.getElem?_eq_some_iff.mp hget).1
  exact ⟨_, bound, entries, hsettled, hpos,
    List.getElem?_eq_getElem (by omega)⟩

end Ledger

namespace Run

variable {S : Scope} (r : Run S)

/-! ## Callers -/

/-- A command is handed to a node under the ticket. -/
def Hands (k ticket : ℕ) : Prop :=
  ∃ id payload origin, r.action k = .event id (.command ticket payload) origin

/-- Handling an event, well or not, the node lets out the effect. -/
def Releases (k id : ℕ) (effect : Effect) : Prop :=
  ∃ event origin n n', r.action k = .event id event origin ∧ r.Up k id n ∧
    (Node.handle event n = .ok () n' ∨ ∃ e, Node.handle event n = .error e n') ∧
    effect ∈ n'.effects

/-- The caller is told that its command was applied at the index. -/
def Answers (k ticket index : ℕ) : Prop :=
  ∃ id, r.Releases k id (.answer ticket (.applied index))

/-- The answers that callers get are in the order of real time. -/
structure Linearizable : Prop where
  inOrder : ∀ k k' a b i j, r.Answers k a i →
    (∀ handed, r.Hands handed b → k < handed) → r.Answers k' b j → i < j
  distinct : ∀ k k' a b i, r.Answers k a i → r.Answers k' b i → a = b

/-- The node appends the command of a caller at the index, and lets it wait. -/
def Accepts (k id index : ℕ) (w : Waiter) : Prop :=
  ∃ payload origin n, r.action k = .event id (.command w.ticket payload) origin ∧
    r.Up k id n ∧ n.standing.role = .leader ∧ w.term = n.standing.currentTerm ∧
    index = n.log.lastIndex + 1

/-- Everybody who waits at a node was let wait before. -/
def Attending (k : ℕ) : Prop :=
  ∀ id n, r.Up k id n → n.effects = [] ∧ n.Attends ∧
    n.Waiting fun index w => ∃ accepted < k, r.Accepts accepted id index w

/-- Whoever is in the midst of the event: who waited before it, or is let wait. -/
def Present (k id : ℕ) (n : Node Memory) (index : ℕ) (w : Waiter) : Prop :=
  n.commandWaiters.get? index = some w ∨ r.Accepts k id index w

variable {r} {ledger : ℕ → Ledger} {k id ticket index : ℕ} {event : Event}
  {origin : Option Origin} {n n' : Node Memory} {w : Waiter}

theorem Hands.unique {a b : ℕ} (ha : r.Hands k a) (hb : r.Hands k b) : a = b := by
  obtain ⟨_, _, _, ha⟩ := ha
  obtain ⟨_, _, _, hb⟩ := hb
  cases ha.symm.trans hb
  rfl

theorem Accepts.hands (h : r.Accepts k id index w) : r.Hands k w.ticket := by
  obtain ⟨payload, origin, _, haction, -⟩ := h
  exact ⟨id, payload, origin, haction⟩

/-! ## Waiting -/

/-- Whoever is told that its command was applied waited before the event, or came
with it. -/
theorem Account.serves (h : r.Account ledger) (hnew : n.effects = [])
    (hattends : n.Attends) (haction : r.action k = .event id event origin) (hup : r.Up k id n)
    (hrun : Node.handle event n = .ok () n') :
    Node.Serves (r.Present k id n) n' := by
  have hsaved : n.Saved := (h.ready hup).settled.persisted
  have huntold : n.Untold := Node.untold_of_new hnew
  have hwaiting : n.Waiting (r.Present k id n) := fun _ _ hw => Or.inl hw
  by_cases hcommand : ∃ ticket payload, event = .command ticket payload
  · obtain ⟨ticket, payload, rfl⟩ := hcommand
    rcases Node.handle_command hsaved hrun with
      ⟨-, rfl⟩ | ⟨hrole, j, -, hsettling⟩
    · refine Node.Untold.serves ?_ hattends hwaiting
      have hslight : (Effect.answer ticket
          (.refused (.notLeader n.standing.leader))).IsSlight := trivial
      exact huntold.append (Node.aside_emit hslight).effects
    · have hsub : ∀ i w,
          (n.accepting j (n.log.lastIndex + 1) ticket).commandWaiters.get? i =
            some w → n.commandWaiters.get? i = some w ∨
              i = n.log.lastIndex + 1 ∧ w = ⟨n.standing.currentTerm, ticket⟩ := by
        intro i w hw
        have hw : (n.commandWaiters.insert (n.log.lastIndex + 1)
            ⟨n.standing.currentTerm, ticket⟩).get? i = some w := hw
        rw [Table.get?_insert] at hw
        split at hw
        · next heq => exact Or.inr ⟨heq, (Option.some.inj hw).symm⟩
        · exact Or.inl hw
      refine hsettling.serves (fun i w hw => ?_) (fun i w hw => ?_) huntold
      · rcases hsub i w hw with hold | ⟨-, rfl⟩
        · exact hattends i w hold
        · exact ⟨hrole, rfl⟩
      · rcases hsub i w hw with hold | ⟨rfl, rfl⟩
        · exact Or.inl hold
        · exact Or.inr ⟨payload, origin, n, haction, hup, hrole, rfl, rfl⟩
  · have hcourse := (Node.handle_runs hsaved event).ok hrun
    exact hcourse.serves (fun ticket payload heq =>
      hcommand ⟨ticket, payload, heq⟩) hattends hwaiting huntold

/-- A node that is up was up before, or started. -/
theorem up_succ (hup : r.Up (k + 1) id n) : r.Up k id n ∨
    (∃ event origin m n', r.action k = .event id event origin ∧ r.Up k id m ∧
      Node.handle event m = .ok () n' ∧ n = n'.drained) ∨
    ∃ settings d d', Node.recover settings d = .ok n d' := by
  have hstep := r.step k
  generalize haction : r.action k = action at hstep
  unfold Up at hup
  generalize hworld : r.world (k + 1) = w' at hstep hup
  cases hstep with
  | @handled other event origin m n' hm harrives hrun =>
      rcases World.place_after_cases hup with ⟨rfl, hplace⟩ | hbefore
      · exact Or.inr (Or.inl ⟨event, origin, m, n', rfl, hm, hrun,
          (Place.up.inj hplace).symm⟩)
      · exact Or.inl hbefore
  | failed =>
      rcases World.place_after_cases hup with ⟨-, hplace⟩ | hbefore
      · exact Place.noConfusion hplace
      · exact Or.inl hbefore
  | @started other settings recorder d d' m hdown hallows hreplaces hrun =>
      rcases World.place_put_cases hup with ⟨rfl, hplace⟩ | hbefore
      · obtain rfl := Place.up.inj hplace
        exact Or.inr (Or.inr ⟨settings, _, d', hrun⟩)
      · exact Or.inl hbefore
  | stopped | refused =>
      rcases World.place_put_cases hup with ⟨-, hplace⟩ | hbefore
      · exact Place.noConfusion hplace
      · exact Or.inl hbefore
  | idle => exact Or.inl hup

/-- What holds of a node when it starts, and goes on to hold as time passes and whatever
the node handles, holds of every node that is up. -/
theorem keeps_of_up {P : ℕ → ℕ → Node Memory → Prop} (hup : r.Up k id n)
    (hstarts : ∀ k id n settings d d', Node.recover settings d = .ok n d' → P k id n)
    (hpasses : ∀ k id n, P k id n → P (k + 1) id n)
    (hhandles : ∀ k id event origin n n', r.action k = .event id event origin →
      r.Up k id n → Node.handle event n = .ok () n' → P k id n →
        P (k + 1) id n'.drained) : P k id n := by
  induction k generalizing id n with
  | zero =>
      obtain ⟨recorder, -, hplace⟩ := r.initial.place id
      exact absurd (hup.symm.trans hplace) (by simp)
  | succ k ih =>
      rcases up_succ hup with hup | ⟨event, origin, m, n', haction, hm, hrun, rfl⟩ |
        ⟨settings, d, d', hrun⟩
      · exact hpasses k id n (ih hup)
      · exact hhandles k id event origin m n' haction hm hrun (ih hm)
      · exact hstarts _ id n settings d d' hrun

theorem Account.attending (h : r.Account ledger) (k : ℕ) : r.Attending k := by
  intro id n hup
  refine keeps_of_up (P := fun k id n => n.effects = [] ∧ n.Attends ∧
    n.Waiting fun index w => ∃ accepted < k, r.Accepts accepted id index w) hup ?_ ?_ ?_
  · intro k id n settings d d' hrun
    obtain ⟨hnew, hnone⟩ := Node.none_waits_of_recover hrun
    exact ⟨hnew, Node.attends_of_none hnone, fun index w hw =>
      absurd ((hnone index).symm.trans hw) (by simp)⟩
  · rintro k id n ⟨hnew, hattends, hwaiting⟩
    refine ⟨hnew, hattends, fun index w hw => ?_⟩
    obtain ⟨accepted, hlt, haccepts⟩ := hwaiting index w hw
    exact ⟨accepted, hlt.trans (Nat.lt_succ_self k), haccepts⟩
  · rintro k id event origin n n' haction hup hrun ⟨hnew, hattends, hwaiting⟩
    have hserves := h.serves hnew hattends haction hup hrun
    refine ⟨rfl, hserves.attends, fun index w hw => ?_⟩
    rcases hserves.waiting index w hw with hold | hnow
    · obtain ⟨accepted, hlt, haccepts⟩ := hwaiting index w hold
      exact ⟨accepted, hlt.trans (Nat.lt_succ_self k), haccepts⟩
    · exact ⟨k, Nat.lt_succ_self k, hnow⟩

/-! ## Indices and the ledger -/

theorem up_of_handled (haction : r.action k = .event id event origin)
    (hup : r.Up k id n) (hrun : Node.handle event n = .ok () n') :
    r.Up (k + 1) id n'.drained := by
  have hstep := r.step k
  unfold Up at hup ⊢
  rw [haction] at hstep
  generalize r.world (k + 1) = w' at hstep ⊢
  cases hstep with
  | @handled _ _ _ m m' hm harrives hrun' =>
      obtain rfl := Place.up.inj (hup.symm.trans hm)
      cases hrun.symm.trans hrun'
      exact World.place_after_self _ _ _ _
  | @failed _ _ _ m m' e hm harrives hrun' =>
      obtain rfl := Place.up.inj (hup.symm.trans hm)
      cases hrun.symm.trans hrun'

/-- Every event that is no unreadable snapshot is handled well. -/
theorem Account.handles (h : r.Account ledger)
    (haction : r.action k = .event id event origin) (hup : r.Up k id n)
    (hcalm : ¬ n.Stumbles event) :
    ∃ n', Node.handle event n = .ok () n' ∧ r.Up (k + 1) id n'.drained := by
  obtain ⟨commit, hadvances⟩ := (h.accounts k).advances _ _ _ _ haction hup
  cases hrun : Node.handle event n with
  | ok _ n' => exact ⟨n', rfl, up_of_handled haction hup hrun⟩
  | error _ n' => exact absurd ((hadvances.handled _).error hrun).1 hcalm

/-- What a node has at an index of its log is in the ledger, as far as its leader
came. -/
theorem Account.exists_of_termAt? (h : r.Account ledger) (hup : r.Up k id n)
    {term : ℕ} (hpos : 0 < index) (hterm : n.log.termAt? index = some term) :
    ∃ e, e.term = term ∧ ((ledger k).log id)[index - 1]? = some e ∧
      ((ledger k).lead term)[index - 1]? = some e := by
  have hshown := (h.ready hup).tracks.journal.log.termAt?_eq_some hterm
  obtain ⟨p, rfl⟩ : ∃ p, index = p + 1 := ⟨index - 1, by omega⟩
  rw [termAt_succ] at hshown
  obtain ⟨e, hget, rfl⟩ := Option.map_eq_some_iff.mp hshown
  exact ⟨e, rfl, hget, (h.sound k).lead_of_log hget⟩

/-- What was in the log of the leader of a term is in it as long as it leads. -/
theorem Account.get?_of_led (h : r.Account ledger) {a term : ℕ} {e : Entry}
    (hlt : a < k) (hup : r.Up k id n) (hrole : n.standing.role = .leader)
    (hterm : term = n.standing.currentTerm)
    (hready : n'.Ready S (ledger (k + 1)) id)
    (hterm' : term = n'.standing.currentTerm) (hpos : 0 < index)
    (hlead : ((ledger (a + 1)).lead term)[index - 1]? = some e) :
    ((ledger (k + 1)).log id)[index - 1]? = some e := by
  have htracks := (h.ready hup).tracks
  have hleader := htracks.leader hrole
  have hnow := getElem?_of_isPrefix ((h.grows hlt).lead term) hlead
  have hlength := (List.getElem?_eq_some_iff.mp hnow).1
  have hheld := hleader.held.trans ((h.accounts k).grows.held_le id _)
  rw [← hleader.lead, ← htracks.term, ← hterm] at hheld
  refine (h.sound (k + 1)).kept_of_term ?_ hpos (by omega)
    (getElem?_of_isPrefix ((h.accounts k).grows.lead term) hnow)
  exact hready.tracks.term.symm.trans hterm'.symm

theorem Account.endsAt (h : r.Account ledger) (hup : r.Up k id n) :
    n.log.EndsAt n.log.lastIndex := by
  have htracks := (h.ready hup).tracks
  have hlast := htracks.journal.log.lastIndex_eq ((h.accounted k).numbered id)
  have hle := htracks.boundary_le_length
  unfold Log.EndsAt
  rw [htracks.journal.log.entries, List.length_drop, hlast]
  omega

/-- A leader appends a command right after all that the leader of its term had. -/
theorem Account.accepts (h : r.Account ledger)
    (haccepts : r.Accepts k id index w) :
    ((ledger k).lead w.term).length + 1 = index ∧
      ∃ e, e.term = w.term ∧
        ((ledger (k + 1)).log id)[index - 1]? = some e ∧
        ((ledger (k + 1)).lead w.term)[index - 1]? = some e := by
  obtain ⟨payload, origin, n, haction, hup, hrole, hterm, rfl⟩ := haccepts
  have htracks := (h.ready hup).tracks
  have hlast := htracks.journal.log.lastIndex_eq ((h.accounted k).numbered id)
  refine ⟨?_, ?_⟩
  · rw [hterm, htracks.term, (htracks.leader hrole).lead, hlast]
  obtain ⟨n', hrun, hafter⟩ := h.handles haction hup not_false
  have hsaved : n.Saved := (h.ready hup).settled.persisted
  rcases Node.handle_command hsaved hrun with
    ⟨hnot, -⟩ | ⟨-, j, hlog, hsettling⟩
  · exact absurd hrole hnot
  have hends := h.endsAt hup
  have hkept : n'.log.termAt? (n.log.lastIndex + 1) =
      some n.standing.currentTerm := by
    refine hsettling.termAt?_last (n := n.accepting j _ w.ticket) ?_ ?_
    · change j.log.EndsAt _
      rw [hlog]
      exact hends.push _
    · change j.log.termAt? _ = _
      rw [hlog]
      exact hends.termAt?_push _
  rw [hterm]
  exact h.exists_of_termAt? hafter (Nat.succ_pos _) hkept

/-- Where a caller was told its index, the entry there is of the term that its
command was accepted in, and it was not there before. -/
structure Earned (r : Run S) (ledger : ℕ → Ledger) (k ticket index : ℕ)
    (accepted term : ℕ) (e : Entry) : Prop where
  le : accepted ≤ k
  hands : r.Hands accepted ticket
  before : ((ledger accepted).lead term).length + 1 = index
  after : index ≤ ((ledger (accepted + 1)).lead term).length
  settled : (ledger (k + 1)).SettledAt S index e
  term : e.term = term

/-- A node fails only in the course of taking over a snapshot. -/
theorem Account.installs_of_error (h : r.Account ledger)
    (haction : r.action k = .event id event origin) (hup : r.Up k id n) {e : Error}
    (hrun : Node.handle event n = .error e n') :
    ∃ ticket request m, event = .installRequest ticket request ∧
      Node.Course event n m ∧ Node.Fails event m n' := by
  obtain ⟨commit, hadvances⟩ := (h.accounts k).advances _ _ _ _ haction hup
  have hstumbles := ((hadvances.handled _).error hrun).1
  obtain ⟨m, hcourse, hfails⟩ :=
    (Node.handle_runs (h.ready hup).settled.persisted event).error hrun
  cases event with
  | installRequest ticket request =>
      exact ⟨ticket, request, m, rfl, hcourse, hfails⟩
  | _ => exact hstumbles.elim

/-- A node that fails has told nobody that a command was applied. -/
theorem Account.untold_of_error (h : r.Account ledger)
    (haction : r.action k = .event id event origin) (hup : r.Up k id n) {e : Error}
    (hrun : Node.handle event n = .error e n') : n'.Untold := by
  have huntold := Node.untold_of_new (h.attending k id n hup).1
  obtain ⟨ticket, request, m, rfl, hcourse, hfails⟩ :=
    h.installs_of_error haction hup hrun
  have hm := hcourse.untold_of_install (h.ready hup).settled.applied huntold
  exact fun effect heffect => hm effect (hfails.effects.subset heffect)

/-- An answer is earned: what the caller handed in has been appended since, and it
is settled. -/
theorem Account.earned (h : r.Account ledger)
    (hanswers : r.Answers k ticket index) :
    ∃ accepted term e, r.Earned ledger k ticket index accepted term e := by
  obtain ⟨id, event, origin, n, n', haction, hup, hends, heffect⟩ := hanswers
  rcases hends with hrun | ⟨error, hrun⟩
  swap
  · exact absurd (h.untold_of_error haction hup hrun _ heffect)
      (by simp [Effect.applied?])
  obtain ⟨hnew, hattends, hwaiting⟩ := h.attending k id n hup
  obtain ⟨hle, w, hpresent, rfl, hterm⟩ :=
    (h.serves hnew hattends haction hup hrun).answered _ heffect ticket index rfl
  obtain ⟨commit, hadvances⟩ := (h.accounts k).advances _ _ _ _ haction hup
  have hready := ((hadvances.handled _).ok hrun).1.toReady
  obtain ⟨accepted, hmoment, haccepts, hkept⟩ : ∃ accepted ≤ k,
      r.Accepts accepted id index w ∧ ∀ e, 0 < index →
        ((ledger (accepted + 1)).log id)[index - 1]? = some e →
        ((ledger (accepted + 1)).lead w.term)[index - 1]? = some e →
        ((ledger (k + 1)).log id)[index - 1]? = some e := by
    rcases hpresent with hold | hnow
    · obtain ⟨accepted, hlt, haccepts⟩ := hwaiting index w hold
      refine ⟨accepted, hlt.le, haccepts, fun e hpos _ hlead => ?_⟩
      -- the node has led ever since, so it has all that was appended
      obtain ⟨hrole, hsame⟩ := hattends index w hold
      exact h.get?_of_led hlt hup hrole hsame hready hterm hpos hlead
    · exact ⟨k, le_rfl, hnow, fun _ _ hlog _ => hlog⟩
  obtain ⟨hbefore, e, heterm, hlog, hlead⟩ := h.accepts haccepts
  have hpos : 0 < index := by omega
  have hlength := (List.getElem?_eq_some_iff.mp hlead).1
  exact ⟨accepted, w.term, e, {
    le := hmoment
    hands := haccepts.hands
    before := hbefore
    after := by omega
    settled := hready.settledAt hpos hle (hkept e hpos hlog hlead)
    term := heterm }⟩

/-- An index that is settled already is not given to a later caller. -/
theorem Account.lt_of_handed_later (h : r.Account ledger)
    {k' a b i j accepted accepted' term term' : ℕ} {e e' : Entry}
    (ha : r.Earned ledger k a i accepted term e)
    (hb : r.Earned ledger k' b j accepted' term' e') (hlt : k < accepted') :
    i < j := by
  by_contra hle
  have hpos : 0 < j := by
    have hbefore := hb.before
    omega
  obtain ⟨found, hfound⟩ := ha.settled.exists_of_le hpos (not_lt.mp hle)
  have hgrows := h.grows (hlt.trans_le (hb.le.trans (Nat.le_succ k')))
  have hsame : found = e' :=
    (hfound.mono hgrows).unique hb.settled (h.sound (k' + 1))
  have hlength := (hfound.le_length (h.sound (k + 1))).trans
    ((h.grows hlt).lead found.term).length_le
  rw [hsame, hb.term] at hlength
  have hbefore := hb.before
  omega

/-- Two callers that were told the same index handed in at the same moment. -/
theorem Account.accepted_eq (h : r.Account ledger)
    {k' a b i accepted accepted' term term' : ℕ} {e e' : Entry}
    (ha : r.Earned ledger k a i accepted term e)
    (hb : r.Earned ledger k' b i accepted' term' e') : accepted = accepted' := by
  have hsame : e = e' := (ha.settled.mono (h.grows (le_max_left _ _))).unique
    (hb.settled.mono (h.grows (le_max_right _ _))) (h.sound _)
  have hterm : term = term' := by rw [← ha.term, ← hb.term, hsame]
  subst hterm
  -- who hands in later finds the index taken
  have hlonger : ∀ {j k}, j + 1 ≤ k →
      ((ledger (j + 1)).lead term).length ≤ ((ledger k).lead term).length :=
    fun hle => ((h.grows hle).lead term).length_le
  rcases lt_trichotomy accepted accepted' with hlt | heq | hlt
  · have hlength := hlonger hlt
    have hafter := ha.after
    have hbefore := hb.before
    omega
  · exact heq
  · have hlength := hlonger hlt
    have hafter := hb.after
    have hbefore := ha.before
    omega

theorem Account.linearizable (h : r.Account ledger) : r.Linearizable where
  inOrder k k' a b i j ha hhanded hb := by
    obtain ⟨_, _, _, hearned⟩ := h.earned ha
    obtain ⟨_, _, _, hearned'⟩ := h.earned hb
    exact h.lt_of_handed_later hearned hearned' (hhanded _ hearned'.hands)
  distinct k k' a b i ha hb := by
    obtain ⟨_, _, _, hearned⟩ := h.earned ha
    obtain ⟨_, _, _, hearned'⟩ := h.earned hb
    have hsame := h.accepted_eq hearned hearned'
    exact (hsame ▸ hearned.hands).unique hearned'.hands

/-- Where the members stay, commands are submitted in order: every caller gets an
index of its own, above all that were given before it handed its command in. -/
theorem linearizable_of_stays {members : NodeSet} (r : Run (.stays members)) :
    r.Linearizable := by
  obtain ⟨ledger, h⟩ := r.exists_account (Or.inl trivial)
  exact h.linearizable

end Run

end Consensus
