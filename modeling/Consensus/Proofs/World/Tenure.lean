import Consensus.Proofs.Node.Confirming
import Consensus.Proofs.Node.InWords
import Consensus.Storage.Memory

/-!
# From a start to a stop

A node starts over whatever is stored, handles one event after another, and stops
when it is told to or when an event fails.  On the way leaders may send it any
entries that follow one another and contradict nothing that it knows to be
committed; snapshots, votes and replies are arbitrary, and so is its disk.

Whoever handed in a command that the node appended as a leader is answered exactly
once by then.  If it is told that its command was applied, then at the index where
it was appended, when the consumer had just got it.
-/

namespace Consensus

variable {σ : Type} [Storage σ]

/-! ## Tenures -/

/-- A node from its start to its stop: before each event, and as the event leaves
it.  No two callers have the same ticket. -/
structure Tenure (σ : Type) [Storage σ] [Counting] where
  length : ℕ
  event : ℕ → Event
  node : ℕ → Node σ
  result : ℕ → Node σ
  starts : ∃ settings d d', Node.recover settings d = .ok (node 0) d'
  handles : ∀ k < length,
    (outcome (Node.handle (event k)) (node k)).2 = result k
  goesOn : ∀ k, k + 1 < length →
    (outcome (Node.handle (event k)) (node k)).1 = .ok ()
  next : ∀ k < length, node (k + 1) = { result k with effects := [] }
  agrees : ∀ k < length, (event k).Agrees (node k)
  tickets : ∀ k < length, ∀ k' < length, ∀ ticket,
    (event k).ticket? = some ticket → (event k').ticket? = some ticket → k = k'

namespace Tenure

section

variable [Counting] (t : Tenure σ)

/-- What the node tells the outside before the event. -/
def toldBefore (k : ℕ) : List Effect :=
  (List.range k).flatMap fun j => (t.result j).effects

/-- All that the node tells the outside, its farewell included. -/
def told : List Effect := t.toldBefore t.length ++ (t.node t.length).stop.effects

/-- The node leads at the event, and appends the command at the index. -/
structure Accepts (k ticket index : ℕ) (payload : Bytes) : Prop where
  within : k < t.length
  event : t.event k = .command ticket payload
  role : (t.node k).standing.role = .leader
  appended : ∃ j, Journal.append (t.node k).standing.currentTerm
    (.command payload) (t.node k).toJournal = .ok index j

/-- Whoever handed in a command that was appended gets one answer. -/
def AnswersOnce : Prop :=
  ∀ k ticket index payload, t.Accepts k ticket index payload →
    t.told.countP (·.Pays ticket) = 1

/-- Whoever is told that its command is applied is told so while its event or a
later one is handled, at the index of its entry.  The consumer has got the command
by then, and the entry is in the log and committed. -/
def AnswersTruly : Prop :=
  ∀ k ticket index payload, t.Accepts k ticket index payload →
    ∀ i, .answer ticket (.applied i) ∈ t.told → i = index ∧
      ∃ k' < t.length, ∃ m before after,
        (t.result k').effects = before ++ .answer ticket (.applied i) :: after ∧
        Node.Passes (t.event k') (t.node k') m (t.result k') ∧
        m.Confirms before ticket index (t.node k).standing.currentTerm payload

/-- The node is between two events, or has just started. -/
def Rests (k : ℕ) : Prop :=
  k ≤ t.length ∧ ∀ j, j + 1 = k →
    (outcome (Node.handle (t.event j)) (t.node j)).1 = .ok ()

/-- Between events only a leader has somebody waiting, for an entry that is in the
log and not applied. -/
def WaitsInOrder : Prop :=
  ∀ k, t.Rests k → ∀ index w,
    (t.node k).commandWaiters.get? index = some w ∨
      (t.node k).changeWaiters.get? index = some w →
    (t.node k).standing.role = .leader ∧
      (t.node k).standing.lastApplied < index ∧
      index ≤ (t.node k).log.lastIndex

/-- The tenure of a node that handles one event after the other. -/
def along (length : ℕ) (n : Node σ) (event : ℕ → Event)
    (starts : ∃ settings d d', Node.recover settings d = .ok n d')
    (goesOn : ∀ k, k + 1 < length →
      (outcome (Node.handle (event k)) (n.along event k)).1 = .ok ())
    (agrees : ∀ k < length, (event k).Agrees (n.along event k))
    (tickets : ∀ k < length, ∀ k' < length, ∀ ticket,
      (event k).ticket? = some ticket → (event k').ticket? = some ticket → k = k') :
    Tenure σ where
  length := length
  event := event
  node := n.along event
  result k := (outcome (Node.handle (event k)) (n.along event k)).2
  starts := starts
  handles _ _ := rfl
  goesOn := goesOn
  next _ _ := rfl
  agrees := agrees
  tickets := tickets

end

end Tenure

/-! ## Single events -/

namespace Node

variable {n n' m : Node σ} {event : Event} {ticket index : ℕ} {payload : Bytes}
  {before after : List Effect} {j : Journal σ}

/-- An event ends well or badly. -/
theorem ends_of_outcome (hn : n.Saved)
    (h : (outcome (handle event) n).2 = n') : Ends event n n' := by
  have hruns := handle_runs hn event
  unfold outcome at h
  cases hrun : handle event n with
  | ok a m =>
      rw [hrun] at h
      exact h ▸ Or.inl (hruns.ok hrun)
  | error e m =>
      rw [hrun] at h
      exact h ▸ Or.inr (hruns.error hrun)

/-- Where a command was appended the caller waits, and what follows is the same as
at a heartbeat. -/
theorem accepted_of_outcome (hn : n.Saved) (hrole : n.standing.role = .leader)
    (hrun : Journal.append n.standing.currentTerm (.command payload)
      n.toJournal = .ok index j)
    (h : (outcome (handle (.command ticket payload)) n).2 = n') :
    ∃ m, Settling .heartbeat (n.accepting j index ticket) m ∧
      (m = n' ∨ Fails .heartbeat m n' ∧
        (outcome (handle (.command ticket payload)) n).1 ≠ .ok ()) := by
  have hruns := ensures_accepted hn hrole hrun ticket
  unfold outcome at h ⊢
  cases houtcome : handle (.command ticket payload) n with
  | ok a m =>
      rw [houtcome] at h
      exact ⟨m, hruns.ok houtcome, Or.inl h⟩
  | error e m =>
      rw [houtcome] at h
      obtain ⟨k, hsettling, hfails⟩ := hruns.error houtcome
      exact ⟨k, hsettling, Or.inr ⟨h ▸ hfails, by simp⟩⟩

theorem Steady.accepting (hn : n.Steady) (hrole : n.standing.role = .leader)
    (hrun : Journal.append n.standing.currentTerm (.command payload)
      n.toJournal = .ok index j) (ticket : ℕ) :
    (n.accepting j index ticket).Steady := by
  have hopens : Opens (.command ticket payload) n
      (n.accepting j index ticket) := .accepted rfl hrole hrun
  exact ⟨(hopens.level hn.level trivial).1,
    hopens.attentive hn.level hn.attentive⟩

/-- One more answer is owed. -/
theorem Steady.dues_accepting (hn : n.Steady)
    (hrun : Journal.append n.standing.currentTerm (.command payload)
      n.toJournal = .ok index j) (ticket : ℕ) :
    (n.accepting j index ticket).dues ticket = n.dues ticket + 1 := by
  obtain ⟨rfl, -⟩ := Journal.log_append hrun
  have hnone := hn.attentive.commands.get?_next hn.level
  have hcame := n.commandWaiters.holders_insert hnone
    ⟨n.standing.currentTerm, ticket⟩ ticket
  have hwith : (n.accepting j (n.log.lastIndex + 1) ticket).dues ticket +
      n.commandWaiters.holders ticket = n.dues ticket + _ :=
    dues_withCommands { n with toJournal := j } _ ticket
  rw [hcame, if_pos rfl] at hwith
  omega

/-- All who wait with the ticket wait for one entry. -/
def WaitsOnly (n : Node σ) (ticket index term : ℕ) (payload : Bytes) : Prop :=
  ∀ i w, n.commandWaiters.get? i = some w → w.ticket = ticket →
    i = index ∧ w.term = term ∧
      n.log.get? index = some ⟨term, index, .command payload⟩

omit [Storage σ] in
theorem WaitsOnly.retains {term : ℕ} (h : n.WaitsOnly ticket index term payload)
    (hretains : Retains ticket n n') :
    n'.WaitsOnly ticket index term payload := by
  intro i w hw hticket
  obtain ⟨hwaited, hlog⟩ := hretains i w hw hticket
  obtain ⟨rfl, hterm, hentry⟩ := h i w hwaited hticket
  exact ⟨rfl, hterm, hlog.trans hentry⟩

omit [Storage σ] in
theorem WaitsOnly.confirms {term term' i : ℕ} {payload' : Bytes}
    (h : n.WaitsOnly ticket index term payload)
    (hawaits : n.Awaits ticket i term' payload')
    (hconfirms : m.Confirms before ticket i term' payload') :
    i = index ∧ m.Confirms before ticket index term payload := by
  obtain ⟨rfl, rfl, hentry⟩ := h i _ hawaits.waiter rfl
  obtain ⟨-, -, hpayload⟩ :=
    Entry.mk.inj (Option.some.inj (hawaits.entry.symm.trans hentry))
  obtain rfl := Payload.command.inj hpayload
  exact ⟨rfl, hconfirms⟩

omit [Storage σ] in
/-- Nobody waits with a ticket that nothing is owed to. -/
theorem not_waits_of_dues (h : n.dues ticket = 0) {i : ℕ} {w : Waiter}
    (hw : n.commandWaiters.get? i = some w) : w.ticket ≠ ticket := by
  intro hticket
  have hpos : 0 < n.commandWaiters.holders ticket := by
    apply List.countP_pos_iff.mpr
    exact ⟨w, n.commandWaiters.mem_values hw, beq_iff_eq.mpr hticket⟩
  unfold dues at h
  omega

theorem waitsOnly_accepting (hn : n.Steady) (hnone : n.dues ticket = 0)
    (hrun : Journal.append n.standing.currentTerm (.command payload)
      n.toJournal = .ok index j) :
    (n.accepting j index ticket).WaitsOnly ticket index n.standing.currentTerm
      payload := by
  obtain ⟨rfl, hlog⟩ := Journal.log_append hrun
  intro i w hw hticket
  change (n.commandWaiters.insert _ _).get? i = some w at hw
  rw [Table.get?_insert] at hw
  split at hw
  · next hindex =>
    obtain rfl := Option.some.inj hw
    refine ⟨hindex, rfl, ?_⟩
    change j.log.get? _ = _
    rw [hlog]
    exact hn.level.gapless.get?_push_last rfl
  · exact absurd hticket (not_waits_of_dues hnone hw)

end Node

/-! ## A whole tenure -/

namespace Tenure

variable {t : Tenure σ} {k ticket index : ℕ} {payload : Bytes}

theorem effects_next (hlt : k < t.length) : (t.node (k + 1)).effects = [] := by
  rw [t.next k hlt]

/-- The node in good order, with nothing caused yet. -/
structure Ready (n : Node σ) : Prop where
  steady : n.Steady
  saved : n.Saved
  effects : n.effects = []

/-- As long as no event fails the node is in good order. -/
theorem ready (t : Tenure σ) (hrests : t.Rests k) : Ready (t.node k) := by
  induction k with
  | zero =>
      obtain ⟨settings, d, d', hrun⟩ := t.starts
      have hnew := (Node.ensures_recover_isNew settings d).ok hrun
      exact ⟨⟨hnew.level, .of_none hnew.commandWaiters hnew.changeWaiters⟩,
        hnew.saved, hnew.effects⟩
  | succ k ih =>
      obtain ⟨hle, hwell⟩ := hrests
      have hlt : k < t.length := hle
      have hk : Ready (t.node k) := by
        apply ih
        refine ⟨hlt.le, ?_⟩
        rintro j rfl
        exact t.goesOn j hlt
      have hcourse := Node.course_of_outcome hk.saved (hwell k rfl)
      rw [t.handles k hlt] at hcourse
      have hharmless := hk.steady.level.isHarmless (t.agrees k hlt)
      have hsteady := hcourse.steady hk.steady hharmless
      rw [t.next k hlt]
      constructor
      · constructor
        · exact hsteady.level.of_same rfl rfl rfl
        · exact hsteady.attentive.of_same rfl rfl rfl rfl rfl
            fun _ _ _ hentry => hentry
      · exact hcourse.saved hk.saved
      · rfl

theorem rests_of_lt (hlt : k < t.length) : t.Rests k := by
  refine ⟨hlt.le, ?_⟩
  rintro j rfl
  exact t.goesOn j hlt

theorem ready_of_lt (hlt : k < t.length) : Ready (t.node k) :=
  t.ready (rests_of_lt hlt)

theorem isHarmless (hlt : k < t.length) : (t.event k).IsHarmless (t.node k) :=
  (ready_of_lt hlt).steady.level.isHarmless (t.agrees k hlt)

theorem ends (hlt : k < t.length) :
    Node.Ends (t.event k) (t.node k) (t.result k) :=
  Node.ends_of_outcome (ready_of_lt hlt).saved (t.handles k hlt)

/-- The tickets of other events are others. -/
theorem Accepts.ticket?_ne (h : t.Accepts k ticket index payload) {j : ℕ}
    (hlt : j < t.length) (hne : j ≠ k) : (t.event j).ticket? ≠ some ticket := by
  intro hticket
  have hown : (t.event k).ticket? = some ticket := by
    rw [h.event]
    rfl
  exact hne (t.tickets j hlt k h.within ticket hticket hown)

/-- What the event does to a caller that handed in another one. -/
theorem dues_result {j : ℕ} (hlt : j < t.length)
    (hticket : (t.event j).ticket? ≠ some ticket) :
    (t.result j).dues ticket = (t.node j).dues ticket :=
  (ends hlt).dues (ready_of_lt hlt).steady (isHarmless hlt) hticket

/-- The event at which a command is accepted brings a caller more. -/
theorem Accepts.dues_result (h : t.Accepts k ticket index payload) :
    (t.result k).dues ticket = (t.node k).dues ticket + 1 := by
  obtain ⟨j, hrun⟩ := h.appended
  have hready := ready_of_lt h.within
  have hhandles := t.handles k h.within
  rw [h.event] at hhandles
  obtain ⟨m, hsettling, hend⟩ :=
    Node.accepted_of_outcome hready.saved h.role hrun hhandles
  have hm : (m : Node σ).dues ticket = _ :=
    hsettling.dues (hready.steady.accepting h.role hrun ticket)
      (by simp [Event.ticket?])
  rw [hready.steady.dues_accepting hrun] at hm
  rcases hend with rfl | ⟨hfails, -⟩
  · exact hm
  · exact (hfails.dues ticket).trans hm

/-- Whoever is not answered by the end of an event waits at the next one. -/
theorem dues_next {j : ℕ} (hlt : j < t.length) (ticket : ℕ) :
    (t.result j).dues ticket = (t.result j).effects.countP (·.Pays ticket) +
      (t.node (j + 1)).dues ticket := by
  rw [t.next j hlt]
  change _ = _ + (0 + (t.result j).commandWaiters.holders ticket +
    (t.result j).changeWaiters.holders ticket)
  unfold Node.dues
  omega

theorem countP_toldBefore (t : Tenure σ) (j ticket : ℕ) :
    (t.toldBefore (j + 1)).countP (·.Pays ticket) =
      (t.toldBefore j).countP (·.Pays ticket) +
        (t.result j).effects.countP (·.Pays ticket) := by
  unfold toldBefore
  rw [List.range_succ, List.flatMap_append, List.countP_append,
    List.flatMap_singleton]

/-- Before the command is accepted nothing is owed to its caller, afterwards one
answer is, or was given. -/
theorem Accepts.owed (h : t.Accepts k ticket index payload) {j : ℕ}
    (hle : j ≤ t.length) :
    (t.toldBefore j).countP (·.Pays ticket) + (t.node j).dues ticket =
      if k < j then 1 else 0 := by
  induction j with
  | zero =>
      obtain ⟨settings, d, d', hrun⟩ := t.starts
      have hnew := (Node.ensures_recover_isNew settings d).ok hrun
      unfold Node.dues toldBefore
      rw [hnew.effects, hnew.commandWaiters, hnew.changeWaiters]
      rfl
  | succ j ih =>
      have hlt : j < t.length := hle
      have hnext := dues_next hlt ticket
      have htold := t.countP_toldBefore j ticket
      have hj := ih hlt.le
      rcases eq_or_ne j k with rfl | hne
      · have hmore := h.dues_result
        rw [if_neg (lt_irrefl j)] at hj
        rw [if_pos (Nat.lt_succ_self j)]
        omega
      · have hsame := Tenure.dues_result hlt (h.ticket?_ne hlt hne)
        rcases lt_or_gt_of_ne hne with hearlier | hlater
        · rw [if_neg (by omega)] at hj ⊢
          omega
        · rw [if_pos hlater] at hj
          rw [if_pos (by omega)]
          omega

/-- Until the command is accepted its caller is owed nothing. -/
theorem Accepts.dues_eq_zero (h : t.Accepts k ticket index payload) :
    (t.node k).dues ticket = 0 := by
  have howed := h.owed h.within.le
  rw [if_neg (lt_irrefl k)] at howed
  omega

/-- The caller waits for its own entry once the command is accepted. -/
theorem Accepts.exists_settling (h : t.Accepts k ticket index payload) :
    ∃ j m, Node.Opens (t.event k) (t.node k) ((t.node k).accepting j index ticket) ∧
      ((t.node k).accepting j index ticket).Steady ∧
      ((t.node k).accepting j index ticket).WaitsOnly ticket index
        (t.node k).standing.currentTerm payload ∧
      Node.Settling .heartbeat ((t.node k).accepting j index ticket) m ∧
      (m = t.result k ∨ Node.Fails .heartbeat m (t.result k) ∧
        (outcome (Node.handle (t.event k)) (t.node k)).1 ≠ .ok ()) := by
  obtain ⟨j, hrun⟩ := h.appended
  have hready := ready_of_lt h.within
  have hhandles := t.handles k h.within
  rw [h.event] at hhandles ⊢
  obtain ⟨m, hsettling, hend⟩ :=
    Node.accepted_of_outcome hready.saved h.role hrun hhandles
  exact ⟨j, m, .accepted rfl h.role hrun,
    hready.steady.accepting h.role hrun ticket,
    Node.waitsOnly_accepting hready.steady h.dues_eq_zero hrun, hsettling, hend⟩

/-- From its own event on, a caller waits for its own entry. -/
theorem Accepts.waitsOnly (h : t.Accepts k ticket index payload) {j : ℕ}
    (hlt : k < j) (hrests : t.Rests j) : (t.node j).WaitsOnly ticket index
      (t.node k).standing.currentTerm payload := by
  induction j with
  | zero => exact absurd hlt (Nat.not_lt_zero _)
  | succ j ih =>
      obtain ⟨hle, hwell⟩ := hrests
      have hj : j < t.length := hle
      have hready := ready_of_lt hj
      rw [t.next j hj]
      rcases eq_or_ne j k with rfl | hne
      · obtain ⟨journal, m, -, hsteady, honly, hsettling, hend⟩ :=
          h.exists_settling
        rcases hend with rfl | ⟨-, hfailed⟩
        · exact honly.retains (hsettling.retains hsteady)
        · exact absurd (hwell j rfl) hfailed
      · have hcourse := Node.course_of_outcome hready.saved (hwell j rfl)
        rw [t.handles j hj] at hcourse
        have hprev := ih (by omega) (rests_of_lt hj)
        exact hprev.retains (hcourse.retains hready.steady (isHarmless hj)
          (h.ticket?_ne hj hne))

/-- The event that brings a command may confirm it at once. -/
theorem Accepts.confirms (h : t.Accepts k ticket index payload) {i : ℕ}
    {before after : List Effect} (heffects : (t.result k).effects =
      before ++ .answer ticket (.applied i) :: after) :
    i = index ∧ ∃ m, Node.Passes (t.event k) (t.node k) m (t.result k) ∧
      m.Confirms before ticket index (t.node k).standing.currentTerm payload := by
  have hready := ready_of_lt h.within
  have hleader : (t.event k).leader? = none := by
    rw [h.event]
    rfl
  obtain ⟨j, m, hopens, hsteady, honly, hsettling, hend⟩ := h.exists_settling
  have huntold : ((t.node k).accepting j index ticket).Untold :=
    Node.untold_of_new hready.effects
  have hcourse : ∀ m', Node.Settling .heartbeat
      ((t.node k).accepting j index ticket) m' →
      Node.Course (t.event k) (t.node k) m' :=
    fun m' hm' => ⟨_, .single hopens, hm'.of_heartbeat hleader⟩
  rcases hend with rfl | ⟨hfails, -⟩
  · obtain ⟨m', term, payload', hm, hm', hawaits, hconfirms⟩ :=
      hsettling.confirms hsteady huntold heffects
    obtain ⟨rfl, hconfirms⟩ := honly.confirms hawaits hconfirms
    exact ⟨rfl, m', ⟨hcourse m' hm, Or.inl (hm'.of_heartbeat _)⟩, hconfirms⟩
  · obtain ⟨lost, hlost⟩ := hfails.effects
    rw [heffects, List.append_assoc, List.cons_append] at hlost
    obtain ⟨m', term, payload', hm, hm', hawaits, hconfirms⟩ :=
      hsettling.confirms hsteady huntold hlost.symm
    obtain ⟨rfl, hconfirms⟩ := honly.confirms hawaits hconfirms
    exact ⟨rfl, m', ⟨hcourse m' hm, Or.inr ⟨m, hm'.of_heartbeat _,
      hfails.of_heartbeat _⟩⟩, hconfirms⟩

omit [Storage σ] in
/-- Nobody is told when the node stops that a command was applied. -/
theorem not_applied_of_stop {n : Node σ} (hnew : n.effects = []) {i : ℕ} :
    .answer ticket (.applied i) ∉ n.stop.effects := by
  have haside : Node.Aside n n.stop :=
    (Node.aside_stopReplication n).trans (Node.aside_dismissWaiters _ _ _)
  obtain ⟨more, hmore, hslight⟩ := haside.effects
  intro hin
  rw [hmore, hnew] at hin
  exact (hslight _ hin).elim

theorem Accepts.effects_last (h : t.Accepts k ticket index payload) :
    (t.node t.length).effects = [] := by
  have hpos := h.within
  obtain ⟨last, hlast⟩ : ∃ last, t.length = last + 1 :=
    ⟨t.length - 1, by omega⟩
  rw [hlast]
  exact effects_next (by omega)

theorem answersOnce (t : Tenure σ) : t.AnswersOnce := by
  intro k ticket index payload h
  have howed := h.owed le_rfl
  rw [if_pos h.within] at howed
  unfold Node.dues at howed
  rw [h.effects_last, List.countP_nil] at howed
  unfold told
  rw [List.countP_append, Node.countP_stop h.effects_last]
  omega

theorem answersTruly (t : Tenure σ) : t.AnswersTruly := by
  intro k ticket index payload h i hin
  have hevents : .answer ticket (.applied i) ∈ t.toldBefore t.length := by
    rcases List.mem_append.mp hin with hevents | hfarewell
    · exact hevents
    · exact absurd hfarewell (not_applied_of_stop h.effects_last)
  obtain ⟨k', hk', hanswer⟩ := List.mem_flatMap.mp hevents
  have hlt : k' < t.length := List.mem_range.mp hk'
  obtain ⟨before, after, heffects⟩ := List.append_of_mem hanswer
  rcases lt_trichotomy k' k with hearlier | rfl | hlater
  · -- before its own event nobody is answered
    have howed := h.owed hlt
    rw [if_neg (by omega), t.countP_toldBefore] at howed
    have hpaid : 0 < (t.result k').effects.countP (·.Pays ticket) :=
      List.countP_pos_iff.mpr ⟨_, hanswer, beq_self_eq_true ticket⟩
    omega
  · obtain ⟨hindex, m, hpasses, hconfirms⟩ := h.confirms heffects
    exact ⟨hindex, k', hlt, m, before, after, heffects, hpasses, hconfirms⟩
  · have hready := ready_of_lt hlt
    obtain ⟨m, term, payload', hpasses, hawaits, hconfirms⟩ :=
      (ends hlt).confirms hready.steady hready.effects (isHarmless hlt)
        (h.ticket?_ne hlt hlater.ne') heffects
    obtain ⟨hindex, hconfirms⟩ :=
      (h.waitsOnly hlater (rests_of_lt hlt)).confirms hawaits hconfirms
    exact ⟨hindex, k', hlt, m, before, after, heffects, hpasses, hconfirms⟩

theorem waitsInOrder (t : Tenure σ) : t.WaitsInOrder := by
  intro k hrests index w hw
  have hsteady := (t.ready hrests).steady
  have hexpects : ∃ IsFor, (t.node k).Expects IsFor index w := by
    rcases hw with hw | hw
    · exact ⟨_, hsteady.attentive.commands.expects index w hw⟩
    · exact ⟨_, hsteady.attentive.changes.expects index w hw⟩
  obtain ⟨IsFor, hexpects⟩ := hexpects
  obtain ⟨payload, -, hentry⟩ := hexpects.entry
  exact ⟨hexpects.role, hexpects.later,
    (hsteady.level.gapless.range_of_get? hentry).2.1⟩

/-! ## Counting in words -/

section

attribute [local instance] Counting.words

/-- The node counts in words, and has room for each event of its tenure. -/
structure HasRoom (t : Tenure σ) : Prop where
  first : (t.node 0).log.Below (wordBound - 1)
  room : ∀ k < t.length, (t.node k).HasRoom (t.event k)

end

/-- The same tenure, told as if the node counted without bound. -/
def HasRoom.unbounded {t : @Tenure σ _ .words} (h : t.HasRoom) : Tenure σ where
  length := @length σ _ .words t
  event := @event σ _ .words t
  node := @node σ _ .words t
  result := @result σ _ .words t
  starts := by
    obtain ⟨settings, d, d', hrun⟩ := @starts σ _ .words t
    exact ⟨settings, d, d', (Node.recover_words_iff h.first).mp hrun⟩
  handles k hlt := by
    rw [← (h.room k hlt).outcome_words]
    exact @handles σ _ .words t k hlt
  goesOn k hlt := by
    rw [← (h.room k (Nat.lt_of_succ_lt hlt)).outcome_words]
    exact @goesOn σ _ .words t k hlt
  next := @next σ _ .words t
  agrees := @agrees σ _ .words t
  tickets := @tickets σ _ .words t

theorem HasRoom.accepts {t : @Tenure σ _ .words} (h : t.HasRoom)
    (haccepts : @Accepts σ _ .words t k ticket index payload) :
    h.unbounded.Accepts k ticket index payload := by
  obtain ⟨hlt, hevent, hrole, j, hrun⟩ := haccepts
  have hbelow := (h.room k hlt).below.log
  have hsame := (Journal.concur_append (hbelow.mono (Nat.le_succ _))
    (Nat.succ_lt_succ hbelow.lastIndex_lt) (by decide)
    (h.unbounded.node k).standing.currentTerm (.command payload)).1
  exact ⟨hlt, hevent, hrole, j, hsame.symm.trans hrun⟩

theorem HasRoom.rests {t : @Tenure σ _ .words} (h : t.HasRoom)
    (hrests : @Rests σ _ .words t k) : h.unbounded.Rests k := by
  obtain ⟨hle, hwell⟩ := hrests
  refine ⟨hle, ?_⟩
  rintro j rfl
  have hroom : (h.unbounded.node j).HasRoom (h.unbounded.event j) := h.room j hle
  rw [← hroom.outcome_words]
  exact hwell j rfl

/-- The only node there is stands for election, and is given two commands. -/
def soleEvent : ℕ → Event
  | 0 => .campaign
  | 1 => .command 7 [120]
  | _ => .command 8 [121]

/-- The node before each of its events, on a disk in memory. -/
def soleNode : ℕ → Node Memory := @Node.along Memory _ .words (.fresh {} ⟨{}, {}⟩) soleEvent

theorem starts_soleNode :
    ∃ settings d d', @Node.recover Memory _ .words settings d = .ok (soleNode 0) d' :=
  ⟨{}, ⟨{}, {}⟩, _, rfl⟩

theorem goesOn_soleNode (k : ℕ) (hlt : k + 1 < 3) :
    (outcome (@Node.handle Memory _ .words (soleEvent k)) (soleNode k)).1 = .ok () := by
  obtain rfl | rfl : k = 0 ∨ k = 1 := by omega
  · decide +kernel
  · decide +kernel

/-- The tickets are counted from seven. -/
theorem add_six_of_soleEvent {k ticket : ℕ} (hlt : k < 3)
    (h : (soleEvent k).ticket? = some ticket) : k + 6 = ticket := by
  obtain rfl | rfl | rfl : k = 0 ∨ k = 1 ∨ k = 2 := by omega
  · exact absurd h (by simp [soleEvent, Event.ticket?])
  · exact Option.some.inj h
  · exact Option.some.inj h

theorem agrees_soleEvent (k : ℕ) (hlt : k < 3) :
    (soleEvent k).Agrees (soleNode k) := by
  obtain rfl | rfl | rfl : k = 0 ∨ k = 1 ∨ k = 2 := by omega
  all_goals trivial

theorem tickets_soleEvent (k : ℕ) (hk : k < 3) (k' : ℕ) (hk' : k' < 3)
    (ticket : ℕ) (h : (soleEvent k).ticket? = some ticket)
    (h' : (soleEvent k').ticket? = some ticket) : k = k' := by
  have hfirst := add_six_of_soleEvent hk h
  have hsecond := add_six_of_soleEvent hk' h'
  omega

theorem hasRoom_soleNode (k : ℕ) (hlt : k < 3) :
    (soleNode k).HasRoom (soleEvent k) := by
  obtain rfl | rfl | rfl : k = 0 ∨ k = 1 ∨ k = 2 := by omega
  · exact ⟨fun _ => by decide, Node.below_of_values (by decide), by decide⟩
  · exact ⟨by simp [soleEvent], Node.below_of_values (by decide +kernel), by decide⟩
  · exact ⟨by simp [soleEvent], Node.below_of_values (by decide +kernel), by decide⟩

/-- The node starts on an empty disk, and stops after three events. -/
def sole : @Tenure Memory _ .words :=
  @along Memory _ .words 3 (.fresh {} ⟨{}, {}⟩) soleEvent starts_soleNode goesOn_soleNode
    agrees_soleEvent tickets_soleEvent

section

attribute [local instance] Counting.words

omit [Storage σ] in
theorem agrees_overflowTurn (k : ℕ) (hlt : k < 4) (n : Node σ) :
    (Node.overflowTurn k).Agrees n := by
  interval_cases k
  all_goals trivial

theorem tickets_overflowTurn (k : ℕ) (hk : k < 4) (k' : ℕ) (hk' : k' < 4) (ticket : ℕ)
    (h : (Node.overflowTurn k).ticket? = some ticket)
    (h' : (Node.overflowTurn k').ticket? = some ticket) : k = k' := by
  interval_cases k
  all_goals
    interval_cases k'
    all_goals
      simp only [Node.overflowTurn, Event.ticket?, Option.some.injEq, reduceCtorEq] at h h'
      try omega

/-- A leader to which nothing is after the last index of all. -/
def overflown : @Tenure Memory _ .words :=
  along 4 (Node.overflowing ⟨{}, {}⟩ 0) Node.overflowTurn
    ⟨{ members := [1, 2, 3] }, ⟨{}, {}⟩, _, rfl⟩
    (fun _ hlt => Node.overflowing_well (Nat.lt_of_succ_lt hlt))
    (fun k hlt => agrees_overflowTurn k hlt _) tickets_overflowTurn

end

end Tenure

end Consensus
