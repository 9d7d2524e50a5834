import Consensus.Proofs.Journal
import Consensus.Proofs.Log
import Consensus.Proofs.Node.Resuming
import Consensus.Proofs.Node.Tracing

/-!
# Who waits for a command

A caller who handed in a command waits at a leader, for an entry of the leader's
term, and only as long as the node leads in that term.  It is told that its
command was applied only once the node has applied that index, and nobody else is
told so.

Which callers there are is left open: whatever is said of those who wait before
an event is said of those who wait or are answered after it.
-/

namespace Consensus

/-- The ticket and the index, if a command is answered as applied. -/
def Effect.applied? : Effect → Option (ℕ × ℕ)
  | .answer ticket (.applied index) => some (ticket, index)
  | _ => none

theorem Effect.IsSlight.applied? {effect : Effect} (h : effect.IsSlight) :
    effect.applied? = none := by
  cases effect with
  | answer ticket answer =>
      cases answer with
      | applied index => exact h.elim
      | _ => rfl
  | _ => rfl

namespace Node

variable {σ : Type} {n n' m : Node σ} {event : Event}

/-! ## Who is there -/

/-- Callers of commands wait at a leader only, for entries of its term. -/
def Attends (n : Node σ) : Prop :=
  ∀ index w, n.commandWaiters.get? index = some w →
    n.standing.role = .leader ∧ w.term = n.standing.currentTerm

/-- Everybody who waits at the node is one of those described. -/
def Waiting (W : ℕ → Waiter → Prop) (n : Node σ) : Prop :=
  ∀ index w, n.commandWaiters.get? index = some w → W index w

/-- Nobody was told yet that a command was applied. -/
def Untold (n : Node σ) : Prop := ∀ effect ∈ n.effects, effect.applied? = none

/-- Everybody who waits is one of those described, and so was everybody who was
told that a command was applied. -/
structure Serves (W : ℕ → Waiter → Prop) (n : Node σ) : Prop where
  attends : n.Attends
  waiting : n.Waiting W
  answered : ∀ effect ∈ n.effects, ∀ ticket index,
    effect.applied? = some (ticket, index) → index ≤ n.standing.lastApplied ∧
      ∃ w, W index w ∧ w.ticket = ticket ∧ w.term = n.standing.currentTerm

variable {W : ℕ → Waiter → Prop}

theorem attends_of_none (h : ∀ index, n.commandWaiters.get? index = none) :
    n.Attends :=
  fun index w hw => absurd ((h index).symm.trans hw) (by simp)

theorem Attends.none_of_role (h : n.Attends) (hrole : n.standing.role ≠ .leader)
    (index : ℕ) : n.commandWaiters.get? index = none := by
  cases hget : n.commandWaiters.get? index with
  | none => rfl
  | some w => exact absurd (h index w hget).1 hrole

theorem Attends.of_waiters (h : n.Attends)
    (hwaiters : ∀ index w, n'.commandWaiters.get? index = some w →
      n.commandWaiters.get? index = some w)
    (hrole : n'.standing.role = n.standing.role)
    (hterm : n'.standing.currentTerm = n.standing.currentTerm) : n'.Attends := by
  intro index w hw
  obtain ⟨hleads, hw⟩ := h index w (hwaiters index w hw)
  exact ⟨hrole.trans hleads, hw.trans hterm.symm⟩

theorem Waiting.of_waiters (h : n.Waiting W)
    (hwaiters : ∀ index w, n'.commandWaiters.get? index = some w →
      n.commandWaiters.get? index = some w) : n'.Waiting W :=
  fun index w hw => h index w (hwaiters index w hw)

theorem Untold.append (h : n.Untold) (hmore : ∃ more,
      n'.effects = n.effects ++ more ∧ ∀ effect ∈ more, effect.IsSlight) :
    n'.Untold := by
  obtain ⟨more, heffects, hslight⟩ := hmore
  intro effect heffect
  rw [heffects, List.mem_append] at heffect
  rcases heffect with hin | hin
  · exact h effect hin
  · exact (hslight effect hin).applied?

theorem untold_of_new (h : n.effects = []) : n.Untold := by
  intro effect heffect
  rw [h] at heffect
  exact absurd heffect List.not_mem_nil

/-- A node at which nobody was answered yet. -/
theorem Untold.serves (huntold : n.Untold) (hattends : n.Attends)
    (hwaiting : n.Waiting W) : Serves W n where
  attends := hattends
  waiting := hwaiting
  answered effect heffect _ _ happlied :=
    absurd ((huntold effect heffect).symm.trans happlied) (by simp)

/-! ## Losing and keeping callers -/

theorem commandWaiters_afterRoleChange (n : Node σ) (before : Role) :
    (n.afterRoleChange before).commandWaiters =
      if before ≠ .leader ∨ n.standing.role = .leader then n.commandWaiters
      else ∅ := by
  unfold afterRoleChange
  split <;> rfl

/-- Nobody comes when the role changes. -/
theorem get?_commandWaiters_turned {s : Standing} {disk : σ} {index : ℕ}
    {w : Waiter} (h : (n.turned s disk).commandWaiters.get? index = some w) :
    n.commandWaiters.get? index = some w := by
  have hwaiters : (n.turned s disk).commandWaiters = _ :=
    commandWaiters_afterRoleChange _ _
  rw [hwaiters] at h
  split at h
  · exact h
  · exact absurd h (by simp)

/-- Whoever waits still after a change of role waits at a leader that goes on to
lead. -/
theorem Attends.turned (hn : n.Attends) {s : Standing} {disk : σ}
    (hs : s.role = .leader → s.currentTerm = n.standing.currentTerm) :
    (n.turned s disk).Attends := by
  have hwaiters : (n.turned s disk).commandWaiters = _ :=
    commandWaiters_afterRoleChange _ _
  unfold Attends
  rw [hwaiters, standing_turned]
  split
  · next hcase =>
    intro index w hw
    obtain ⟨hleads, hterm⟩ := hn index w hw
    have hrole : s.role = .leader := hcase.resolve_left (not_not.mpr hleads)
    exact ⟨hrole, hterm.trans (hs hrole).symm⟩
  · exact fun _ _ hw => absurd hw (by simp)

/-- A leader goes on to lead only in its term. -/
theorem Turns.currentTerm_of_leader [Storage σ] {s : Standing}
    (h : n.Turns event s) (hrole : s.role = .leader) :
    s.currentTerm = n.standing.currentTerm := by
  have hobserve : ∀ term, (n.standing.observeTerm term).role = .leader →
      (n.standing.observeTerm term).currentTerm = n.standing.currentTerm := by
    intro term hleads
    rw [observeTerm_of_active (by rw [hleads]; simp)]
  cases h with
  | asked ticket request =>
      obtain ⟨vote, heq⟩ := answerVote_eq n.standing n.log request
      rw [heq] at hrole ⊢
      exact hobserve _ hrole
  | led hleader hterm =>
      rw [role_following (le_observeTerm _ _)] at hrole
      exact absurd hrole (by simp)
  | overtaken hreply hterm =>
      rw [role_becomeFollower] at hrole
      exact absurd hrole (by simp)
  | stood hevent hself => exact absurd hrole (by simp [Standing.becomeCandidate])

/-- Wherever an event makes a node stand, what it applied stays. -/
theorem Turns.indices [Storage σ] {s : Standing} (h : n.Turns event s) :
    s.commitIndex = n.standing.commitIndex ∧
      s.lastApplied = n.standing.lastApplied := by
  cases h with
  | asked ticket request =>
      obtain ⟨vote, heq⟩ := answerVote_eq n.standing n.log request
      rw [heq]
      exact ⟨commitIndex_observeTerm _ _, lastApplied_observeTerm _ _⟩
  | led hleader hterm =>
      obtain ⟨votes, heq⟩ := following_eq (le_observeTerm n.standing _) _
      rw [heq]
      exact ⟨commitIndex_observeTerm _ _, lastApplied_observeTerm _ _⟩
  | overtaken hreply hterm =>
      rw [becomeFollower_of_lt hterm]
      exact ⟨rfl, rfl⟩
  | stood => exact ⟨rfl, rfl⟩

/-- Taking an event in, a node finds more committed or applied only with what a leader
sends it. -/
theorem Opens.indices [Storage σ] (h : Opens event n n') :
    (n'.standing.commitIndex = n.standing.commitIndex ∧
        n'.standing.lastApplied = n.standing.lastApplied) ∨
      (∃ request reach, n.Takes event request ∧
        n'.standing.commitIndex =
          max n.standing.commitIndex (min request.leaderCommit reach) ∧
        n'.standing.lastApplied = n.standing.lastApplied) ∨
      ∃ request, n.Admits event request ∧
        n'.standing.commitIndex =
          max n.standing.commitIndex request.lastIncludedIndex ∧
        n'.standing.lastApplied = request.lastIncludedIndex := by
  cases h with
  | turned hturns =>
      rw [standing_turned]
      exact Or.inl hturns.indices
  | crowned =>
      rw [standing_crowned]
      exact Or.inl ⟨rfl, rfl⟩
  | @merged request reach j htakes =>
      exact Or.inr (Or.inl ⟨request, reach, htakes, rfl, rfl⟩)
  | @rebased request disk j recorder hadmits =>
      exact Or.inr (Or.inr ⟨request, hadmits, rfl, rfl⟩)
  | _ => exact Or.inl ⟨rfl, rfl⟩

/-- Applying an entry answers at most the caller at its index. -/
theorem get?_commandWaiters_applyEntry {entry : Entry} {index i : ℕ} {w : Waiter}
    (h : (n.applyEntry entry index).commandWaiters.get? i = some w) :
    n.commandWaiters.get? i = some w := by
  have hchange : ∀ m : Node σ, (m.answerChange index entry.term).commandWaiters =
      m.commandWaiters := by
    intro m
    unfold answerChange
    split <;> rfl
  rw [applyEntry, answerWaiters_eq, hchange] at h
  unfold answerCommand at h
  have henact : ((n.enact entry index).mapStanding fun s =>
      { s with lastApplied := index }).commandWaiters = n.commandWaiters :=
    (enacts_enact n entry index).waiters
  split at h
  · rw [henact] at h
    exact h
  · have h : ((((n.enact entry index).mapStanding fun s =>
        { s with lastApplied := index }).commandWaiters).erase index).get? i =
          some w := h
    rw [Table.get?_erase] at h
    split at h
    · exact absurd h (by simp)
    · rw [henact] at h
      exact h

variable [Storage σ]

/-- Nobody waits at a node that starts. -/
theorem none_waits_of_recover [Storage.Faithful σ] {settings : Settings}
    {d d' : Durable σ} (hrun : recover settings d = .ok n d') :
    n.effects = [] ∧ ∀ index, n.commandWaiters.get? index = none := by
  have hresumes := (ensures_recover settings d).ok hrun
  refine ⟨hresumes.effects, fun index => ?_⟩
  rw [hresumes.commandWaiters]
  exact Table.get?_empty index

/-! ## Deeds -/

/-- Taking in an event that is no command, a node may lose callers. -/
theorem Opens.attends (h : Opens event n n') (hn : n.Attends)
    (hevent : ∀ ticket payload, event ≠ .command ticket payload) :
    n'.Attends ∧ ∀ index w, n'.commandWaiters.get? index = some w →
      n.commandWaiters.get? index = some w := by
  -- most deeds leave callers, role and term alone
  have hsame : ∀ m : Node σ, m.commandWaiters = n.commandWaiters →
      m.standing.role = n.standing.role →
      m.standing.currentTerm = n.standing.currentTerm →
      m.Attends ∧ ∀ index w, m.commandWaiters.get? index = some w →
        n.commandWaiters.get? index = some w := by
    intro m hwaiters hrole hterm
    have hsub : ∀ index w, m.commandWaiters.get? index = some w →
        n.commandWaiters.get? index = some w :=
      fun index w hw => hwaiters ▸ hw
    exact ⟨hn.of_waiters hsub hrole hterm, hsub⟩
  -- and a node that does not lead has no callers
  have hnone : ∀ m : Node σ, m.commandWaiters = n.commandWaiters →
      n.standing.role ≠ .leader →
      m.Attends ∧ ∀ index w, m.commandWaiters.get? index = some w →
        n.commandWaiters.get? index = some w := by
    intro m hwaiters hrole
    refine ⟨attends_of_none fun index => ?_, fun index w hw => hwaiters ▸ hw⟩
    rw [hwaiters]
    exact hn.none_of_role hrole index
  cases h with
  | turned hturns hstores =>
      exact ⟨hn.turned hturns.currentTerm_of_leader,
        fun _ _ hw => get?_commandWaiters_turned hw⟩
  | waited => exact hsame _ rfl rfl rfl
  | counted => exact hsame _ rfl rfl rfl
  | crowned hrole => exact hnone _ rfl (by rw [hrole]; simp)
  | noted => exact hsame _ rfl rfl rfl
  | accepted haccepted => exact absurd haccepted (hevent _ _)
  | proposed => exact hsame _ rfl rfl rfl
  | merged htakes => exact hnone _ rfl (by rw [htakes.role]; simp)
  | refreshed => exact hsame _ rfl rfl rfl
  | rebased hadmits => exact hnone _ rfl (by rw [hadmits.role]; simp)
  | recorded => exact hsame _ rfl rfl rfl

/-- Taking an event in, a node tells nobody that a command was applied. -/
theorem Opens.effects (h : Opens event n n') : ∃ more,
    n'.effects = n.effects ++ more ∧ ∀ effect ∈ more, effect.IsSlight := by
  have hnothing : ∃ more, n.effects = n.effects ++ more ∧
      ∀ effect ∈ more, effect.IsSlight :=
    ⟨[], (List.append_nil _).symm, by simp⟩
  cases h with
  | turned hturns hstores => exact (aside_turned n _ _).effects
  | waited =>
      have hslight : Effect.resetElectionTimer.IsSlight := trivial
      exact (aside_emit hslight).effects
  | crowned => exact n.aside_crowned.effects
  | proposed =>
      obtain ⟨more, hmore, hslight⟩ := (aside_syncPeers _ _ _).effects
      exact ⟨more, hmore, hslight⟩
  | _ => exact hnothing

/-- Nobody comes, nothing is applied, and nobody is told so. -/
structure Calm (n n' : Node σ) : Prop where
  waiters : ∀ index w, n'.commandWaiters.get? index = some w →
    n.commandWaiters.get? index = some w
  attends : n.Attends → n'.Attends
  currentTerm : n'.standing.currentTerm = n.standing.currentTerm
  commitIndex : n'.standing.commitIndex = n.standing.commitIndex
  lastApplied : n'.standing.lastApplied = n.standing.lastApplied
  effects : ∃ more, n'.effects = n.effects ++ more ∧
    ∀ effect ∈ more, effect.applied? = none

omit [Storage σ] in
theorem Calm.of_standing (hwaiters : n'.commandWaiters = n.commandWaiters)
    (hstanding : n'.standing = n.standing)
    (heffects : ∃ more, n'.effects = n.effects ++ more ∧
      ∀ effect ∈ more, effect.applied? = none) : Calm n n' where
  waiters index w hw := hwaiters ▸ hw
  attends hn := by
    unfold Attends
    rw [hwaiters, hstanding]
    exact hn
  currentTerm := by rw [hstanding]
  commitIndex := by rw [hstanding]
  lastApplied := by rw [hstanding]
  effects := heffects

/-- Committed entries are applied in order, and all else is done in calm. -/
theorem Closes.applies_or_calm (h : Closes event n n') :
    (∃ entry, n.standing.lastApplied < n.standing.commitIndex ∧
      n.log.get? (n.standing.lastApplied + 1) = some entry ∧
      n' = n.applyEntry entry (n.standing.lastApplied + 1)) ∨ Calm n n' := by
  cases h with
  | @applied entry hmore hentry => exact Or.inl ⟨entry, hmore, hentry, rfl⟩
  | retired =>
      have hstanding := n.retiring_eq
      obtain ⟨more, hmore, hslight⟩ := (aside_turned n n.retiring n.disk).effects
      refine Or.inr ⟨fun _ _ hw => get?_commandWaiters_turned hw, fun hn =>
        hn.turned fun hrole => ?_, ?_, ?_, ?_, more, hmore, fun effect heffect =>
          (hslight effect heffect).applied?⟩
      · rw [hstanding] at hrole
        exact absurd hrole (by simp)
      all_goals rw [standing_turned, hstanding]
  | announced =>
      exact Or.inr (.of_standing rfl rfl ⟨[_], rfl, by simp [Effect.applied?]⟩)
  | compacted =>
      exact Or.inr (.of_standing rfl rfl ⟨[], (List.append_nil _).symm, by simp⟩)
  | dispatched =>
      exact Or.inr (.of_standing rfl rfl ⟨[_], rfl, by simp [Effect.applied?]⟩)
  | campaigned =>
      refine Or.inr (.of_standing rfl rfl ⟨_, rfl, fun effect heffect => ?_⟩)
      obtain ⟨peer, -, rfl⟩ := List.mem_map.mp heffect
      rfl
  | answered hanswers =>
      refine Or.inr (.of_standing rfl rfl ⟨[_], rfl, fun effect heffect => ?_⟩)
      rw [List.mem_singleton.mp heffect]
      cases hanswers <;> rfl

/-- Committing and applying, a node may answer callers, each of them once its
index is applied. -/
theorem Closes.serves (h : Closes event n n') (hn : Serves W n) :
    Serves W n' := by
  rcases h.applies_or_calm with ⟨entry, -, -, rfl⟩ | hcalm
  · let index := n.standing.lastApplied + 1
    have hsub : ∀ i w, (n.applyEntry entry index).commandWaiters.get? i =
        some w → n.commandWaiters.get? i = some w :=
      fun i w hw => get?_commandWaiters_applyEntry hw
    have hstanding := (enacted_applyEntry n entry index).standing
    obtain ⟨more, heffects, hsays⟩ := effects_applyEntry n entry index
    refine ⟨hn.attends.of_waiters hsub ?_ ?_, hn.waiting.of_waiters hsub, ?_⟩
    · rw [hstanding]
    · rw [hstanding]
    intro effect heffect ticket i happlied
    rw [hstanding]
    rw [heffects, List.mem_append] at heffect
    rcases heffect with hin | hin
    · obtain ⟨hle, w, hw⟩ := hn.answered effect hin ticket i happlied
      exact ⟨hle.trans (Nat.le_succ _), w, hw⟩
    · rcases hsays effect hin with hslight | ⟨_, _, rfl⟩ | ⟨w, hw, -, rfl⟩
      · exact absurd (hslight.applied?.symm.trans happlied) (by simp)
      · exact absurd happlied (by simp [Effect.applied?])
      · obtain ⟨rfl, rfl⟩ := Prod.mk.inj (Option.some.inj happlied)
        exact ⟨le_rfl, w, hn.waiting _ w hw, rfl, (hn.attends _ w hw).2⟩
  · refine ⟨hcalm.attends hn.attends, hn.waiting.of_waiters hcalm.waiters, ?_⟩
    intro effect heffect ticket index happlied
    obtain ⟨more, hmore, hnone⟩ := hcalm.effects
    rw [hmore, List.mem_append] at heffect
    rcases heffect with hin | hin
    · rw [hcalm.currentTerm, hcalm.lastApplied]
      exact hn.answered effect hin ticket index happlied
    · exact absurd ((hnone effect hin).symm.trans happlied) (by simp)

/-! ## Events -/

/-- What follows from an event, once it is taken in. -/
theorem Settling.serves (h : Settling event n n') (hattends : n.Attends)
    (hwaiting : n.Waiting W) (huntold : n.Untold) : Serves W n' := by
  obtain ⟨m, hcommitting, hclosing⟩ := h
  refine keeps_of_reflTransGen hclosing (fun _ _ hstep => hstep.serves) ?_
  cases hcommitting with
  | refl => exact huntold.serves hattends hwaiting
  | single hstep =>
      cases hstep with
      | committed => exact Untold.serves huntold hattends hwaiting

/-- At an event that is no command, nobody but those who wait is answered. -/
theorem Course.serves (h : Course event n n')
    (hevent : ∀ ticket payload, event ≠ .command ticket payload)
    (hattends : n.Attends) (hwaiting : n.Waiting W) (huntold : n.Untold) :
    Serves W n' := by
  obtain ⟨m, hopening, hsettling⟩ := h
  obtain ⟨hattends', hwaiting', huntold'⟩ :
      m.Attends ∧ m.Waiting W ∧ m.Untold := by
    refine keeps_of_reflTransGen hopening
      (I := fun n => n.Attends ∧ n.Waiting W ∧ n.Untold) ?_
      ⟨hattends, hwaiting, huntold⟩
    rintro a b hstep ⟨ha, hw, hu⟩
    obtain ⟨hb, hsub⟩ := hstep.attends ha hevent
    exact ⟨hb, hw.of_waiters hsub, hu.append hstep.effects⟩
  exact hsettling.serves hattends' hwaiting' huntold'

/-- A snapshot from a leader makes a node apply no entry, so all that follows from it
is done in calm. -/
theorem Course.keeps_of_install {I : Node σ → Prop} {ticket : ℕ}
    {request : InstallRequest} (h : Course (.installRequest ticket request) n n')
    (happlied : n.standing.lastApplied = n.standing.commitIndex)
    (hopens : ∀ a b, Opens (.installRequest ticket request) a b → I a → I b)
    (hcloses : ∀ a b, Closes (.installRequest ticket request) a b → Calm a b →
      I a → I b) (hn : I n) : I n' := by
  refine (Course.keeps h (I := fun n => I n ∧
    n.standing.lastApplied = n.standing.commitIndex) ?_ ?_ ?_ ⟨hn, happlied⟩).1
  · rintro a b hstep ⟨ha, hi⟩
    refine ⟨hopens a b hstep ha, ?_⟩
    rcases hstep.indices with ⟨hcommit, hlast⟩ | ⟨_, _, htakes, -⟩ |
      ⟨request, hadmits, hcommit, hlast⟩
    · rw [hcommit, hlast]
      exact hi
    · obtain ⟨_, hevent⟩ := htakes.event
      exact absurd hevent (by simp)
    · have hnew := hadmits.new
      omega
  · rintro a b hstep -
    cases hstep with
    | committed hevent => exact absurd hevent (by simp [Event.leader?])
  · rintro a b hstep ⟨ha, hi⟩
    rcases hstep.applies_or_calm with ⟨_, hmore, -, -⟩ | hcalm
    · exact absurd hi hmore.ne
    · refine ⟨hcloses a b hstep hcalm ha, ?_⟩
      rw [hcalm.commitIndex, hcalm.lastApplied]
      exact hi

theorem Course.untold_of_install {ticket : ℕ} {request : InstallRequest}
    (h : Course (.installRequest ticket request) n n')
    (happlied : n.standing.lastApplied = n.standing.commitIndex)
    (huntold : n.Untold) : n'.Untold := by
  refine h.keeps_of_install happlied (fun a b hstep ha => ha.append hstep.effects)
    (fun a b _ hcalm ha => ?_) huntold
  obtain ⟨more, heffects, hnone⟩ := hcalm.effects
  intro effect heffect
  rw [heffects, List.mem_append] at heffect
  exact heffect.elim (ha effect) (hnone effect)

/-- A leader that has appended a command, with its caller waiting. -/
def accepting (n : Node σ) (j : Journal σ) (index ticket : ℕ) : Node σ :=
  { n with
    toJournal := j
    commandWaiters :=
      n.commandWaiters.insert index ⟨n.standing.currentTerm, ticket⟩ }

variable [Storage.Faithful σ]

/-- A command is refused, or the leader appends it and does what follows. -/
theorem handle_command (hn : n.Saved) {ticket : ℕ} {payload : Bytes}
    (hrun : Node.handle (.command ticket payload) n = .ok () n') :
    n.standing.role ≠ .leader ∧
        n' = n.emit (.answer ticket (.refused (.notLeader n.standing.leader))) ∨
      n.standing.role = .leader ∧ ∃ j : Journal σ,
        j.log = n.log.push ⟨n.standing.currentTerm, n.log.lastIndex + 1,
          .command payload⟩ ∧
        Settling (.command ticket payload)
          (n.accepting j (n.log.lastIndex + 1) ticket) n' := by
  have hruns : Ensures (Node.handle (.command ticket payload)) n (fun _ n' =>
      n.standing.role ≠ .leader ∧
          n' = n.emit (.answer ticket (.refused (.notLeader n.standing.leader))) ∨
        n.standing.role = .leader ∧ ∃ j : Journal σ,
          j.log = n.log.push ⟨n.standing.currentTerm, n.log.lastIndex + 1,
            .command payload⟩ ∧
          Settling (.command ticket payload)
            (n.accepting j (n.log.lastIndex + 1) ticket) n') fun _ => True := by
    unfold Node.handle handleCommand
    rw [Ensures.get_bind_iff]
    refine Ensures.ite (fun hrole => Or.inl ⟨hrole, rfl⟩) fun hleads => ?_
    refine Ensures.bind (Ensures.onJournal (fun index j hrun => ?_)
      fun _ _ _ => trivial)
    obtain ⟨rfl, hlog, -⟩ := (Journal.ensures_append n.toJournal _ _).ok hrun
    rw [Ensures.modify_bind_iff]
    have hspread : Does (.command ticket payload)
        (Settling (.command ticket payload)
          (n.accepting j (n.log.lastIndex + 1) ticket))
        (advanceCommit >>= fun _ => replicateAll)
        (n.accepting j (n.log.lastIndex + 1) ticket) fun _ _ => True :=
      does_spread hn rfl
    exact Ensures.mono hspread
      (fun _ n' h => Or.inr ⟨not_not.mp hleads, j, hlog, h.1⟩) fun _ _ => trivial
  exact hruns.ok hrun

/-- What follows from an event leaves the end of the log where it is. -/
theorem Settling.termAt?_last (h : Settling event n n') {index term : ℕ}
    (hends : n.log.EndsAt index) (hterm : n.log.termAt? index = some term) :
    n'.log.termAt? index = some term := by
  obtain ⟨m, hcommitting, hclosing⟩ := h
  have hm : m.log = n.log := by
    cases hcommitting with
    | refl => rfl
    | single hstep =>
        cases hstep with
        | committed => rfl
  refine (keeps_of_reflTransGen hclosing (I := fun n =>
    n.log.EndsAt index ∧ n.log.termAt? index = some term) ?_ ?_).2
  · rintro a b hstep ⟨hends, hterm⟩
    cases hstep with
    | @applied entry =>
        have hsame := (enacted_applyEntry a entry
          (a.standing.lastApplied + 1)).journal
        rw [hsame]
        exact ⟨hends, hterm⟩
    | retired =>
        rw [log_turned]
        exact ⟨hends, hterm⟩
    | @compacted t disk j hlong hsaved hrun =>
        have hnew : (⟨a.log, disk⟩ : Journal σ).log.snapshotIndex <
            a.standing.lastApplied := hlong.new
        obtain ⟨hlog, -⟩ := (Journal.ensures_compactTo _ hnew t).ok hrun
        have hle := hends.le_of_termAt? hlong.new hlong.term
        change j.log.EndsAt index ∧ j.log.termAt? index = some term
        rw [hlog]
        refine ⟨hends.dropThrough hlong.new hle t, ?_⟩
        rw [Log.termAt?_dropThrough hlong.new hlong.term hle]
        exact hterm
    | _ => exact ⟨hends, hterm⟩
  · rw [hm]
    exact ⟨hends, hterm⟩

end Node

end Consensus
