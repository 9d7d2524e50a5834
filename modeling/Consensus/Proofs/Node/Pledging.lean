import Mathlib.Order.Basic
import Consensus.Proofs.Journal
import Consensus.Proofs.Node.Tracing

/-!
# What a node pledges

A node takes sides when it grants a vote, when it asks for votes and when it
leads.  Whatever it does in a term, it stands in that term then, its vote given to
the candidate in question.  Term and vote only move on, to a newer term or from
no vote to some vote, and they are on the disk before anybody hears of them.  So
all pledges that were ever made are ordered like the moments they were made at.
-/

namespace Consensus

open Storage (Faithful)

/-! ## Term and vote move on -/

/-- One hard state comes after another if its term is newer, or if it is the same
and no vote was taken back. -/
instance : Preorder HardState where
  le h h' := h.currentTerm < h'.currentTerm ∨ h.currentTerm = h'.currentTerm ∧
    ∀ c, h.votedFor = some c → h'.votedFor = some c
  le_refl _ := Or.inr ⟨rfl, fun _ hc => hc⟩
  le_trans a b c hab hbc := by
    rcases hab with hab | ⟨hab, hvote⟩
    · rcases hbc with hbc | ⟨hbc, -⟩
      · exact Or.inl (hab.trans hbc)
      · exact Or.inl (hbc ▸ hab)
    · rcases hbc with hbc | ⟨hbc, hvote'⟩
      · exact Or.inl (hab ▸ hbc)
      · exact Or.inr ⟨hab.trans hbc, fun c hc => hvote' c (hvote c hc)⟩

namespace HardState

variable {h h' : HardState} {term c c' : ℕ}

theorem le_of_currentTerm_lt (hlt : h.currentTerm < h'.currentTerm) : h ≤ h' :=
  Or.inl hlt

theorem currentTerm_le (hle : h ≤ h') : h.currentTerm ≤ h'.currentTerm := by
  rcases hle with hlt | ⟨heq, -⟩
  · exact hlt.le
  · exact heq.le

/-- In one term a vote goes to one candidate. -/
theorem candidate_eq
    (hle : (⟨term, some c⟩ : HardState) ≤ ⟨term, some c'⟩) : c = c' := by
  rcases hle with hlt | ⟨-, hvote⟩
  · exact absurd hlt (lt_irrefl term)
  · exact (Option.some.inj (hvote c rfl)).symm

end HardState

namespace Node

theorem hardState_le_observeTerm (s : Standing) (term : ℕ) :
    s.hardState ≤ (s.observeTerm term).hardState := by
  rcases lt_or_ge s.currentTerm term with hlt | hle
  · exact HardState.le_of_currentTerm_lt
      (hlt.trans_eq (currentTerm_observeTerm hlt.le).symm)
  · rw [observeTerm_of_le hle]

theorem hardState_le_answerVote (s : Standing) (log : Log)
    (request : VoteRequest) :
    s.hardState ≤ (s.answerVote log request).2.hardState := by
  refine (hardState_le_observeTerm s request.term).trans ?_
  rcases answerVote_cases s log request with
    ⟨-, hstanding⟩ | ⟨-, hstanding, -, hfree, -⟩
  · rw [hstanding]
  · rw [hstanding]
    exact Or.inr ⟨rfl, fun c hc => congrArg some (hfree c hc).symm⟩

variable {σ : Type} [Counting] {n n' : Node σ} {event : Event}

/-- Wherever an event makes a node stand, term and vote move on. -/
theorem Turns.hardState_le {s : Standing} (h : n.Turns event s) :
    n.standing.hardState ≤ s.hardState := by
  cases h with
  | asked ticket request => exact hardState_le_answerVote _ _ _
  | led hleader hterm =>
      rw [hardState_following (le_observeTerm _ _)]
      exact hardState_le_observeTerm _ _
  | overtaken hreply hterm =>
      refine HardState.le_of_currentTerm_lt ?_
      rw [becomeFollower_of_lt hterm]
      exact hterm
  | stood hevent hself hterm => exact HardState.le_of_currentTerm_lt hterm

/-- Whoever stands for election or leads has its own vote. -/
def VotesForItself (s : Standing) (self : ℕ) : Prop :=
  s.role ≠ .follower → s.votedFor = some self

theorem Turns.votesForItself {s : Standing} (h : n.Turns event s)
    (hn : VotesForItself n.standing n.self) : VotesForItself s n.self := by
  have hobserve : ∀ term, VotesForItself (n.standing.observeTerm term) n.self := by
    intro term hrole
    have hsame := observeTerm_of_active hrole
    rw [hsame] at hrole ⊢
    exact hn hrole
  cases h with
  | asked ticket request =>
      rcases answerVote_cases n.standing n.log request with
        ⟨-, hstanding⟩ | ⟨-, hstanding, -, hfree, -⟩
      · rw [hstanding]
        exact hobserve _
      · rw [hstanding]
        intro hrole
        exact congrArg some (hfree _ (hobserve _ hrole)).symm
  | led hleader hterm =>
      exact fun hrole =>
        absurd (role_following (le_observeTerm _ _) _) hrole
  | overtaken hreply hterm =>
      exact fun hrole => absurd (role_becomeFollower _ _) hrole
  | stood hevent hself => exact fun _ => rfl

end Node

/-! ## Pledges in order -/

/-- Pledges made on the way from one hard state to another, one after the
other. -/
structure InOrder (start now : HardState) (made : HardState → Prop) : Prop where
  between : ∀ p, made p → start ≤ p ∧ p ≤ now
  ordered : ∀ p q, made p → made q → p ≤ q ∨ q ≤ p

/-- Pledges to the present hard state may be added. -/
theorem InOrder.extend {start now now' : HardState}
    {made made' : HardState → Prop} (h : InOrder start now made)
    (hstart : start ≤ now) (hle : now ≤ now')
    (hmade : ∀ p, made' p → made p ∨ p = now') : InOrder start now' made' where
  between p hp := by
    rcases hmade p hp with hold | rfl
    · exact ⟨(h.between p hold).1, (h.between p hold).2.trans hle⟩
    · exact ⟨hstart.trans hle, le_rfl⟩
  ordered p q hp hq := by
    rcases hmade p hp with hold | rfl
    · rcases hmade q hq with hold' | rfl
      · exact h.ordered p q hold hold'
      · exact Or.inl ((h.between p hold).2.trans hle)
    · rcases hmade q hq with hold' | rfl
      · exact Or.inr ((h.between q hold').2.trans hle)
      · exact Or.inl le_rfl

/-- The hard state that an effect pledges a node to keep to, where the node has
the id and handles the event. -/
def Effect.pledge? (id : ℕ) (event : Event) : Effect → Option HardState
  | .answer _ (.vote reply) =>
    match event with
    | .voteRequest _ request =>
      if reply.granted then some ⟨request.term, some request.candidate⟩
      else none
    | _ => none
  | .requestVote _ request => some ⟨request.term, some id⟩
  | _ => none

/-- The term that a message speaks of. -/
def Request.term? : Request → Option ℕ
  | .requestVote request => some request.term
  | .appendEntries request => some request.term
  | .installSnapshot request => some request.term
  | _ => none

/-- The term that an effect tells a peer. -/
def Effect.term? : Effect → Option ℕ
  | .answer _ (.vote reply) => some reply.term
  | .answer _ (.append reply) => some reply.term
  | .answer _ (.install reply) => some reply.term
  | .requestVote _ request => some request.term
  | .dispatch _ request _ => request.term?
  | _ => none

/-- All that the effect says of term and vote is the given hard state. -/
structure Effect.Speaks (id : ℕ) (event : Event) (now : HardState)
    (effect : Effect) : Prop where
  pledge : ∀ p, effect.pledge? id event = some p → p = now
  term : ∀ t, effect.term? = some t → t = now.currentTerm

theorem Effect.speaks_of_silent {effect : Effect} {id : ℕ} {event : Event}
    (hpledge : effect.pledge? id event = none) (hterm : effect.term? = none)
    (now : HardState) : effect.Speaks id event now where
  pledge p hp := absurd (hpledge.symm.trans hp) (by simp)
  term t ht := absurd (hterm.symm.trans ht) (by simp)

theorem Effect.IsSlight.pledge? {effect : Effect} (h : effect.IsSlight) (id : ℕ)
    (event : Event) : effect.pledge? id event = none := by
  cases effect with
  | answer ticket answer =>
      cases answer with
      | vote reply => exact h.elim
      | _ => rfl
  | requestVote peer request => exact h.elim
  | _ => rfl

theorem Effect.IsSlight.term? {effect : Effect} (h : effect.IsSlight) :
    effect.term? = none := by
  cases effect with
  | answer ticket answer =>
      cases answer with
      | refused error => rfl
      | change reply => rfl
      | _ => exact h.elim
  | requestVote peer request => exact h.elim
  | dispatch peer request batch => exact h.elim
  | _ => rfl

theorem Effect.IsSlight.speaks {effect : Effect} (h : effect.IsSlight) (id : ℕ)
    (event : Event) (now : HardState) : effect.Speaks id event now :=
  Effect.speaks_of_silent (h.pledge? id event) h.term? now

namespace Node

variable {σ : Type} [Storage σ] [Faithful σ] {n m n' : Node σ} {event : Event}
  {id : ℕ} {start : HardState} {led : List HardState}

/-- The pledge was made in an effect, or it is among the others given. -/
def Pledged (id : ℕ) (event : Event) (led : List HardState)
    (effects : List Effect) (p : HardState) : Prop :=
  p ∈ led ∨ ∃ effect ∈ effects, effect.pledge? id event = some p

/-- No message spoke of a later term. -/
def Spoken (effects : List Effect) (now : HardState) : Prop :=
  ∀ effect ∈ effects, ∀ t, effect.term? = some t → t ≤ now.currentTerm

/-- The node keeps to its pledges: what it stands by is stored, and its pledges
since the start are in order. -/
structure Keeps (id : ℕ) (event : Event) (start : HardState)
    (led : List HardState) (n : Node σ) : Prop where
  self : n.self = id
  stored : (Faithful.stored n.disk).hardState = n.standing.hardState
  saved : n.Saved
  since : start ≤ n.standing.hardState
  votes : VotesForItself n.standing id
  pledged : InOrder start n.standing.hardState
    (Pledged id event led n.effects)
  spoken : Spoken n.effects n.standing.hardState

/-- New pledges are to the hard state of the moment. -/
theorem Keeps.step (h : Keeps id event start led n) (hself : n'.self = n.self)
    (hstored : (Faithful.stored n'.disk).hardState = n'.standing.hardState)
    (hsaved : n'.Saved)
    (hle : n.standing.hardState ≤ n'.standing.hardState)
    (hvotes : VotesForItself n'.standing id)
    (heffects : ∃ more, n'.effects = n.effects ++ more ∧ ∀ effect ∈ more,
      effect.Speaks id event n'.standing.hardState) :
    Keeps id event start led n' where
  self := hself.trans h.self
  stored := hstored
  saved := hsaved
  since := h.since.trans hle
  votes := hvotes
  pledged := by
    obtain ⟨more, hmore, hnew⟩ := heffects
    refine h.pledged.extend h.since hle fun p hp => ?_
    rcases hp with hled | ⟨effect, heffect, hpledge⟩
    · exact Or.inl (Or.inl hled)
    · rw [hmore, List.mem_append] at heffect
      rcases heffect with hin | hin
      · exact Or.inl (Or.inr ⟨effect, hin, hpledge⟩)
      · exact Or.inr ((hnew effect hin).pledge p hpledge)
  spoken effect heffect t ht := by
    obtain ⟨more, hmore, hnew⟩ := heffects
    rw [hmore, List.mem_append] at heffect
    rcases heffect with hin | hin
    · exact (h.spoken effect hin t ht).trans (HardState.currentTerm_le hle)
    · exact ((hnew effect hin).term t ht).le

/-- What happens on the side keeps to all pledges. -/
theorem Keeps.aside (h : Keeps id event start led n) (haside : Aside n n') :
    Keeps id event start led n' := by
  obtain ⟨more, hmore, hslight⟩ := haside.effects
  refine h.step haside.self ?_ (haside.saved h.saved) ?_ ?_
    ⟨more, hmore, fun effect heffect => (hslight effect heffect).speaks _ _ _⟩
  · rw [haside.disk, haside.standing]
    exact h.stored
  · rw [haside.standing]
  · rw [haside.standing]
    exact h.votes

/-- So does a change that concerns neither term and vote nor the outside. -/
theorem Keeps.same (h : Keeps id event start led n) (hself : n'.self = n.self)
    (hdisk : (Faithful.stored n'.disk).hardState =
      (Faithful.stored n.disk).hardState)
    (hpersisted : n'.persisted = n.persisted)
    (hhard : n'.standing.hardState = n.standing.hardState)
    (hvotes : VotesForItself n'.standing id)
    (heffects : n'.effects = n.effects) : Keeps id event start led n' := by
  refine h.step hself ?_ ?_ hhard.ge hvotes
    ⟨[], heffects.trans (List.append_nil _).symm, by simp⟩
  · rw [hdisk, hhard]
    exact h.stored
  · unfold Saved
    rw [hpersisted, hhard]
    exact h.saved

/-- A pledge to the hard state of the moment. -/
theorem Keeps.pledge (h : Keeps id event start led n) :
    Keeps id event start (n.standing.hardState :: led) n :=
  { h with
    pledged := h.pledged.extend h.since le_rfl fun p hp => by
      rcases hp with hled | hsaid
      · rcases List.mem_cons.mp hled with rfl | hled
        · exact Or.inr rfl
        · exact Or.inl (Or.inl hled)
      · exact Or.inl (Or.inr hsaid) }

variable [Counting]

theorem Keeps.turned (h : Keeps id event start led n) {s : Standing} {disk : σ}
    (hturns : n.Turns event s) (hstores : n.Stores s.hardState disk) :
    Keeps id event start led (n.turned s disk) := by
  have hdisk : (Faithful.stored disk).hardState = s.hardState := by
    cases hstores with
    | held hsame =>
        rw [h.stored, hsame]
        exact h.saved.symm
    | written _ hrun =>
        have hsave := (Faithful.saveHardState s.hardState n.disk).ok hrun
        rw [hsave]
  have hbase : Keeps id event start led { n with
      standing := s, disk := disk, persisted := s.hardState } := by
    refine h.step rfl hdisk rfl hturns.hardState_le ?_
      ⟨[], (List.append_nil _).symm, by simp⟩
    exact h.self ▸ hturns.votesForItself (h.self.symm ▸ h.votes)
  exact hbase.aside (aside_turned n s disk)

theorem Opens.keeps (hopens : Opens event n n')
    (h : Keeps id event start led n) : Keeps id event start led n' := by
  cases hopens with
  | turned hturns hstores => exact h.turned hturns hstores
  | waited => exact h.aside (aside_emit trivial)
  | counted => exact h.same rfl rfl rfl rfl h.votes rfl
  | crowned hrole =>
      have hleads : Keeps id event start led
          (n.mapStanding (·.becomeLeader n.self)) := by
        refine h.same rfl rfl rfl rfl (fun _ => h.votes ?_) rfl
        rw [hrole]
        simp
      exact hleads.aside n.aside_crowned
  | noted hevent hrole hrun =>
      have hdisk := (Journal.spares_append _ _ n.toJournal).ok hrun
      exact h.same rfl hdisk.hardState rfl rfl h.votes rfl
  | accepted hevent hrole hrun =>
      have hdisk := (Journal.spares_append _ _ n.toJournal).ok hrun
      exact h.same rfl hdisk.hardState rfl rfl h.votes rfl
  | @proposed ticket index change j hevent hrole hpending hchanges hrun =>
      have hdisk := (Journal.spares_append _ _ n.toJournal).ok hrun
      have happended : Keeps id event start led { n with
          toJournal := j
          membership := n.membership.onAppend index
            (n.membership.committed.withChange change)
          changeWaiters :=
            n.changeWaiters.insert index ⟨n.standing.currentTerm, ticket⟩ } :=
        h.same rfl hdisk.hardState rfl rfl h.votes rfl
      exact happended.aside (aside_syncPeers _ _ _)
  | merged htakes hrun =>
      have hdisk := (Journal.spares_appendFromLeader _ _ n.toJournal).ok hrun
      exact h.same rfl hdisk.hardState rfl rfl h.votes rfl
  | refreshed => exact h.same rfl rfl rfl rfl h.votes rfl
  | @rebased request disk j recorder hadmits hsaved hrun =>
      have hsave := (Faithful.saveSnapshot request.snapshot n.disk).ok hsaved
      have hdisk := (Journal.spares_rebase _ _ ⟨n.log, disk⟩).ok hrun
      refine h.same rfl (hdisk.hardState.trans ?_) rfl rfl h.votes rfl
      rw [hsave]
  | recorded => exact h.same rfl rfl rfl rfl h.votes rfl

omit [Counting] in
theorem Commits.keeps (hcommits : Commits event n n')
    (h : Keeps id event start led n) : Keeps id event start led n' := by
  cases hcommits with
  | committed => exact h.same rfl rfl rfl rfl h.votes rfl

omit [Storage σ] [Faithful σ] [Counting] in
theorem speaks_of_answers {ticket : ℕ} {answer : Answer}
    (h : n.Answers event ticket answer) :
    (Effect.answer ticket answer).Speaks id event n.standing.hardState := by
  cases h with
  | @vote ticket request reply hterm hgranted =>
      refine ⟨fun p hp => ?_, fun t ht => (Option.some.inj ht).symm.trans hterm⟩
      simp only [Effect.pledge?] at hp
      split at hp
      · next hyes => rw [hgranted hyes, ← Option.some.inj hp]
      · exact absurd hp (by simp)
  | append request hterm =>
      exact ⟨fun p hp => absurd hp (by simp [Effect.pledge?]),
        fun t ht => (Option.some.inj ht).symm.trans hterm⟩
  | install request hterm =>
      exact ⟨fun p hp => absurd hp (by simp [Effect.pledge?]),
        fun t ht => (Option.some.inj ht).symm.trans hterm⟩
  | _ => exact Effect.speaks_of_silent rfl rfl _

omit [Faithful σ] in
theorem speaks_of_sends {progress : Progress} {peer : ℕ} {request : Request}
    {kind : BatchKind} {batch : Batch} (h : n.Sends progress request kind) :
    (Effect.dispatch peer request batch).Speaks id event
      n.standing.hardState := by
  refine ⟨fun p hp => absurd hp (by simp [Effect.pledge?]), fun t ht => ?_⟩
  cases h with
  | snapshot => exact (Option.some.inj ht).symm
  | entries => exact (Option.some.inj ht).symm

theorem Closes.keeps (hcloses : Closes event n n')
    (h : Keeps id event start led n) : Keeps id event start led n' := by
  cases hcloses with
  | @applied entry =>
      have henacted := enacted_applyEntry n entry (n.standing.lastApplied + 1)
      obtain ⟨more, hmore, hsays⟩ :=
        effects_applyEntry n entry (n.standing.lastApplied + 1)
      have hstanding := henacted.standing
      refine h.step (congrArg Settings.nodeId henacted.settings) ?_
        (henacted.saved h.saved) ?_ ?_ ⟨more, hmore, fun effect heffect => ?_⟩
      · rw [henacted.replica]
        exact h.stored
      · rw [hstanding]
        exact le_rfl
      · rw [hstanding]
        exact h.votes
      · rcases hsays effect heffect with hslight | ⟨_, _, rfl⟩ | ⟨_, _, _, rfl⟩
        · exact hslight.speaks _ _ _
        · exact Effect.speaks_of_silent rfl rfl _
        · exact Effect.speaks_of_silent rfl rfl _
  | retired =>
      have hbase : Keeps id event start led { n with
          standing := n.retiring, persisted := n.retiring.hardState } := by
        refine h.step rfl ?_ rfl ?_ ?_ ⟨[], (List.append_nil _).symm, by simp⟩
        · change (Faithful.stored n.disk).hardState = n.retiring.hardState
          rw [retiring_eq]
          exact h.stored
        · change n.standing.hardState ≤ n.retiring.hardState
          rw [retiring_eq]
          exact le_rfl
        · intro hrole
          change n.retiring.role ≠ .follower at hrole
          rw [retiring_eq] at hrole
          exact absurd rfl hrole
      exact hbase.aside (aside_turned n n.retiring n.disk)
  | announced =>
      refine h.step rfl h.stored h.saved le_rfl h.votes ⟨_, rfl, ?_⟩
      intro effect heffect
      rw [List.mem_singleton.mp heffect]
      exact Effect.speaks_of_silent rfl rfl _
  | @compacted term disk j hlong hsaved hrun =>
      have hsave := (Faithful.saveSnapshot (n.ownSnapshot term) n.disk).ok hsaved
      have hdisk := (Journal.spares_compactTo _ _ ⟨n.log, disk⟩).ok hrun
      refine h.same rfl (hdisk.hardState.trans ?_) rfl rfl h.votes rfl
      rw [hsave]
  | dispatched hrole hpeer hidle hsends =>
      refine h.step rfl h.stored h.saved le_rfl h.votes ⟨_, rfl, ?_⟩
      intro effect heffect
      rw [List.mem_singleton.mp heffect]
      exact speaks_of_sends (n := n) hsends
  | campaigned hevent hrole =>
      refine h.step rfl h.stored h.saved le_rfl h.votes ⟨_, rfl, ?_⟩
      intro effect heffect
      obtain ⟨peer, -, rfl⟩ := List.mem_map.mp heffect
      have hvote : n.standing.votedFor = some id :=
        h.votes (by rw [hrole]; simp)
      refine ⟨fun p hp => ?_, fun t ht => (Option.some.inj ht).symm⟩
      rw [← Option.some.inj hp]
      exact congrArg (HardState.mk _) hvote.symm
  | answered hanswers =>
      refine h.step rfl h.stored h.saved le_rfl h.votes ⟨_, rfl, ?_⟩
      intro effect heffect
      rw [List.mem_singleton.mp heffect]
      exact speaks_of_answers (n := n) hanswers

theorem Course.pledges (hcourse : Course event n n')
    (h : Keeps id event start led n) : Keeps id event start led n' :=
  Course.keeps hcourse (fun _ _ hstep => hstep.keeps)
    (fun _ _ hstep => hstep.keeps) (fun _ _ hstep => hstep.keeps) h

/-- A deed that fails leaves term and vote as they were stored. -/
theorem Breaks.hardState {disk : σ} (h : n.Breaks event disk) :
    (Faithful.stored disk).hardState = (Faithful.stored n.disk).hardState := by
  cases h with
  | turning hturns hchanged hrun =>
      rw [(Faithful.saveHardState _ n.disk).error hrun]
  | appending hrole hrun =>
      exact ((Journal.spares_append _ _ n.toJournal).error hrun).hardState
  | merging htakes hrun =>
      exact ((Journal.spares_appendFromLeader _ _ n.toJournal).error
        hrun).hardState
  | receiving hadmits hrun =>
      rw [(Faithful.saveSnapshot _ n.disk).error hrun]
  | rebasing hadmits hsaved hrun =>
      have hdisk := (Journal.spares_rebase _ _ ⟨n.log, _⟩).error hrun
      rw [hdisk.hardState, (Faithful.saveSnapshot _ n.disk).ok hsaved]
  | restoring hadmits hsaved hrun hrestored =>
      have hdisk := (Journal.spares_rebase _ _ ⟨n.log, _⟩).ok hrun
      rw [hdisk.hardState, (Faithful.saveSnapshot _ n.disk).ok hsaved]
  | applying => rfl
  | measuring => rfl
  | saving hlong hrun => rw [(Faithful.saveSnapshot _ n.disk).error hrun]
  | compacting hlong hsaved hrun =>
      have hdisk := (Journal.spares_compactTo _ _ ⟨n.log, _⟩).error hrun
      rw [hdisk.hardState, (Faithful.saveSnapshot _ n.disk).ok hsaved]
  | sending => rfl

/-- What is left of a node keeps to its pledges. -/
structure Leaves (id : ℕ) (event : Event) (start : HardState)
    (led : List HardState) (n : Node σ) : Prop where
  since : start ≤ (Faithful.stored n.disk).hardState
  pledged : InOrder start (Faithful.stored n.disk).hardState
    (Pledged id event led n.effects)
  spoken : Spoken n.effects (Faithful.stored n.disk).hardState

theorem Fails.leaves (hfails : Fails event m n')
    (h : Keeps id event start led m) : Leaves id event start led n' := by
  have hhard : (Faithful.stored n'.disk).hardState = m.standing.hardState :=
    hfails.breaks.hardState.trans h.stored
  have hsaid : ∀ p, Pledged id event led n'.effects p →
      Pledged id event led m.effects p := by
    rintro p (hled | ⟨effect, heffect, hp⟩)
    · exact Or.inl hled
    · exact Or.inr ⟨effect, hfails.effects.subset heffect, hp⟩
  refine ⟨hhard ▸ h.since, ?_, ?_⟩
  · rw [hhard]
    exact h.pledged.extend h.since le_rfl fun p hp => Or.inl (hsaid p hp)
  · rw [hhard]
    exact fun effect heffect => h.spoken effect (hfails.effects.subset heffect)

/-- A computation that does nothing but deeds keeps to all pledges. -/
theorem Does.keeps {α : Type} {act : Act σ α} {Q : α → Node σ → Prop}
    (h : Does event (Course event n) act m Q)
    (hn : Keeps id event start led n) :
    Ensures act m (fun _ n' => Keeps id event start led n')
      (Leaves id event start led) :=
  Ensures.mono h (fun _ _ hn' => hn'.1.pledges hn)
    fun _ ⟨_, hk, hfails⟩ => hfails.leaves (hk.pledges hn)

theorem Keeps.handle (h : Keeps id event start led n) (hterm : n.HasNextTerm event) :
    Ensures (Node.handle event) n (fun _ n' => Keeps id event start led n')
      (Leaves id event start led) :=
  Ensures.mono (runs_of_hasNextTerm h.saved hterm) (fun _ _ hn' => hn'.pledges h)
    fun _ ⟨_, hk, hfails⟩ => hfails.leaves (hk.pledges h)

/-- A node that is elected pledges to lead, whatever it does as a leader. -/
theorem Keeps.handle_of_won (h : Keeps id event start led n)
    (hterm : n.HasNextTerm event) (hwon : contest event n = .ok true m) :
    m.standing.hardState = ⟨m.standing.currentTerm, some id⟩ ∧
      Ensures (Node.handle event) n
        (fun _ n' => Keeps id event start (m.standing.hardState :: led) n')
        (Leaves id event start (m.standing.hardState :: led)) := by
  obtain ⟨hcourse, hcontested⟩ := (does_contest h.saved hterm).ok hwon
  obtain ⟨-, hevent, hrole, hquorum⟩ := hcontested rfl
  have hm := hcourse.pledges h
  refine ⟨congrArg (HardState.mk _) (hm.votes (by rw [hrole]; simp)), ?_⟩
  rw [handle_eq]
  exact Ensures.bind_of_ok hwon
    ((does_becomeLeader hm.saved hevent hrole hquorum).keeps hm.pledge)

end Node

end Consensus
