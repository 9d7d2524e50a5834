import Consensus.Node.Commit
import Consensus.Proofs.Counting
import Mathlib.Data.Nat.Notation
import Mathlib.Logic.Basic

/-!
# What happens on the side

Much of what a node does concerns callers, timers and replicators.  It leaves
the log, the disk, term and vote, the members and the consumer alone, and what
it tells the outside neither gives a vote nor asks for one, neither sends an
entry nor says that one was applied.  Applying an entry moves one index besides.
-/

namespace Consensus

/-- An effect that says nothing about votes, entries or what was applied. -/
def Effect.IsSlight : Effect → Prop
  | .answer _ (.refused _) => True
  | .answer _ (.change _) => True
  | .startReplicator _ => True
  | .stopReplicator _ => True
  | .resetElectionTimer => True
  | _ => False

namespace Node

variable {σ : Type} {n n' n'' : Node σ}

/-- Only callers, timers, replicators and slight effects are affected. -/
structure Aside (n n' : Node σ) : Prop where
  settings : n'.settings = n.settings
  replica : n'.toReplica = n.toReplica
  membership : n'.membership = n.membership
  persisted : n'.persisted = n.persisted
  recorder : n'.recorder = n.recorder
  effects : ∃ more, n'.effects = n.effects ++ more ∧
    ∀ effect ∈ more, effect.IsSlight

theorem Aside.refl (n : Node σ) : Aside n n :=
  ⟨rfl, rfl, rfl, rfl, rfl, [], (List.append_nil _).symm, by simp⟩

theorem Aside.trans (h : Aside n n') (h' : Aside n' n'') : Aside n n'' where
  settings := h'.settings.trans h.settings
  replica := h'.replica.trans h.replica
  membership := h'.membership.trans h.membership
  persisted := h'.persisted.trans h.persisted
  recorder := h'.recorder.trans h.recorder
  effects := by
    obtain ⟨more, hmore, hslight⟩ := h.effects
    obtain ⟨more', hmore', hslight'⟩ := h'.effects
    refine ⟨more ++ more', ?_, fun effect heffect => ?_⟩
    · rw [hmore', hmore, List.append_assoc]
    · rcases List.mem_append.mp heffect with hin | hin
      · exact hslight effect hin
      · exact hslight' effect hin

theorem Aside.journal (h : Aside n n') : n'.toJournal = n.toJournal :=
  congrArg Replica.toJournal h.replica

theorem Aside.log (h : Aside n n') : n'.log = n.log :=
  congrArg Journal.log h.journal

theorem Aside.disk (h : Aside n n') : n'.disk = n.disk :=
  congrArg Journal.disk h.journal

theorem Aside.standing (h : Aside n n') : n'.standing = n.standing :=
  congrArg Replica.standing h.replica

theorem Aside.self (h : Aside n n') : n'.self = n.self :=
  congrArg Settings.nodeId h.settings

theorem aside_emitAll {effects : List Effect}
    (h : ∀ effect ∈ effects, effect.IsSlight) : Aside n (n.emitAll effects) :=
  ⟨rfl, rfl, rfl, rfl, rfl, effects, rfl, h⟩

theorem aside_emit {effect : Effect} (h : effect.IsSlight) :
    Aside n (n.emit effect) :=
  aside_emitAll fun found hfound => by
    rw [List.mem_singleton.mp hfound]
    exact h

theorem aside_stopReplication (n : Node σ) : Aside n n.stopReplication := by
  refine ⟨rfl, rfl, rfl, rfl, rfl, _, rfl, fun effect heffect => ?_⟩
  obtain ⟨peer, -, rfl⟩ := List.mem_map.mp heffect
  trivial

theorem aside_dismissWaiters (n : Node σ) (error : Error) (reply : ChangeReply) :
    Aside n (n.dismissWaiters (.refused error) (.change reply)) := by
  refine ⟨rfl, rfl, rfl, rfl, rfl, _, rfl, fun effect heffect => ?_⟩
  rw [List.mem_append, List.mem_map, List.mem_map] at heffect
  rcases heffect with ⟨w, -, rfl⟩ | ⟨w, -, rfl⟩ <;> trivial

theorem aside_syncPeers (n : Node σ) (targets : NodeSet) (nextIndex : ℕ) :
    Aside n (n.syncPeers targets nextIndex) := by
  refine ⟨rfl, rfl, rfl, rfl, rfl, _, rfl, fun effect heffect => ?_⟩
  rw [List.mem_append, List.mem_map, List.mem_map] at heffect
  rcases heffect with ⟨peer, -, rfl⟩ | ⟨peer, -, rfl⟩ <;> trivial

theorem aside_afterRoleChange (n : Node σ) (before : Role) :
    Aside n (n.afterRoleChange before) := by
  unfold afterRoleChange
  split
  · exact Aside.refl n
  · exact ((aside_stopReplication n).trans (aside_dismissWaiters _ _ _)).trans
      (aside_emit trivial)

/-- The node with the pending change read off its log. -/
def refreshed (n : Node σ) : Node σ :=
  { n with
    membership := n.membership.refreshPending
      (n.log.entriesAfter n.standing.lastApplied) }

/-! ## Applying an entry -/

/-- Answer the caller that waits for a command at `index`. -/
def answerCommand (n : Node σ) (index term : ℕ) : Node σ :=
  match n.commandWaiters.get? index with
  | none => n
  | some w =>
    { n.emit (.answer w.ticket
        (if w.term = term then .applied index else .refused .leadershipLost)) with
      commandWaiters := n.commandWaiters.erase index }

/-- Answer the caller that waits for a membership change at `index`. -/
def answerChange (n : Node σ) (index term : ℕ) : Node σ :=
  match n.changeWaiters.get? index with
  | none => n
  | some w =>
    { n.emit (.answer w.ticket (.change
        (if w.term = term then .done n.self else .refused n.standing.leader))) with
      changeWaiters := n.changeWaiters.erase index }

theorem answerWaiters_eq (n : Node σ) (index term : ℕ) :
    n.answerWaiters index term =
      (n.answerCommand index term).answerChange index term :=
  rfl

/-- Applying an entry moves one index and neither log nor disk. -/
structure Enacted (index : ℕ) (n n' : Node σ) : Prop where
  settings : n'.settings = n.settings
  persisted : n'.persisted = n.persisted
  replica : n'.toReplica =
    { n.toReplica with standing := { n.standing with lastApplied := index } }

theorem enacted_applyEntry [Counting] (n : Node σ) (entry : Entry) (index : ℕ) :
    Enacted index n (n.applyEntry entry index) := by
  have henact : Enacted index n ((n.enact entry index).mapStanding fun s =>
      { s with lastApplied := index }) := by
    unfold enact
    split
    · exact ⟨rfl, rfl, rfl⟩
    · exact ⟨rfl, rfl, rfl⟩
    · unfold adoptMembers
      dsimp only
      split <;> exact ⟨rfl, rfl, rfl⟩
  have hcommand : ∀ m : Node σ, Enacted index n m →
      Enacted index n (m.answerCommand index entry.term) := by
    intro m hm
    unfold answerCommand
    split
    · exact hm
    · exact ⟨hm.settings, hm.persisted, hm.replica⟩
  have hchange : ∀ m : Node σ, Enacted index n m →
      Enacted index n (m.answerChange index entry.term) := by
    intro m hm
    unfold answerChange
    split
    · exact hm
    · exact ⟨hm.settings, hm.persisted, hm.replica⟩
  exact hchange _ (hcommand _ henact)

theorem Enacted.standing {index : ℕ} (h : Enacted index n n') :
    n'.standing = { n.standing with lastApplied := index } := by
  rw [h.replica]

theorem Enacted.journal {index : ℕ} (h : Enacted index n n') :
    n'.toJournal = n.toJournal := by
  rw [h.replica]

/-- What applying an entry at an index tells the outside: the consumer gets the
command, and the caller that waits for an entry of this term gets its answer. -/
def AppliedSays (n : Node σ) (entry : Entry) (index : ℕ) (effect : Effect) :
    Prop :=
  effect.IsSlight ∨
    (∃ command, entry.payload = .command command ∧
      effect = .consume index command) ∨
    ∃ w, n.commandWaiters.get? index = some w ∧ w.term = entry.term ∧
      effect = .answer w.ticket (.applied index)

/-- Nothing but callers of commands is left to be answered. -/
structure Enacts (entry : Entry) (index : ℕ) (n n' : Node σ) : Prop where
  waiters : n'.commandWaiters = n.commandWaiters
  effects : ∃ more, n'.effects = n.effects ++ more ∧
    ∀ effect ∈ more, n.AppliedSays entry index effect

theorem enacts_enact [Counting] (n : Node σ) (entry : Entry) (index : ℕ) :
    Enacts entry index n (n.enact entry index) := by
  have hnothing : Enacts entry index n n :=
    ⟨rfl, [], (List.append_nil _).symm, by simp⟩
  unfold enact
  split
  · exact hnothing
  · next command hpayload =>
    refine ⟨rfl, [_], rfl, fun effect heffect => ?_⟩
    exact Or.inr (Or.inl ⟨command, hpayload, List.mem_singleton.mp heffect⟩)
  · unfold adoptMembers
    dsimp only
    split
    · obtain ⟨more, hmore, hslight⟩ := (aside_syncPeers _ _ _).effects
      exact ⟨rfl, more, hmore, fun effect heffect =>
        Or.inl (hslight effect heffect)⟩
    · exact ⟨rfl, [], (List.append_nil _).symm, by simp⟩

theorem aside_answerChange (n : Node σ) (index term : ℕ) :
    Aside n (n.answerChange index term) := by
  unfold answerChange
  split
  · exact Aside.refl n
  · refine ⟨rfl, rfl, rfl, rfl, rfl, [_], rfl, fun effect heffect => ?_⟩
    rw [List.mem_singleton.mp heffect]
    trivial

theorem effects_answerCommand (n : Node σ) (entry : Entry) (index : ℕ) :
    ∃ more, (n.answerCommand index entry.term).effects = n.effects ++ more ∧
      ∀ effect ∈ more, n.AppliedSays entry index effect := by
  unfold answerCommand
  split
  · exact ⟨[], (List.append_nil _).symm, by simp⟩
  · next w hw =>
    refine ⟨[_], rfl, fun effect heffect => ?_⟩
    rw [List.mem_singleton.mp heffect]
    split
    · next hterm => exact Or.inr (Or.inr ⟨w, hw, hterm, rfl⟩)
    · exact Or.inl trivial

theorem effects_applyEntry [Counting] (n : Node σ) (entry : Entry) (index : ℕ) :
    ∃ more, (n.applyEntry entry index).effects = n.effects ++ more ∧
      ∀ effect ∈ more, n.AppliedSays entry index effect := by
  have henacts := enacts_enact n entry index
  obtain ⟨enacted, henacted, hsays⟩ := henacts.effects
  obtain ⟨told, htold, hcommand⟩ := effects_answerCommand
    ((n.enact entry index).mapStanding fun s => { s with lastApplied := index })
    entry index
  obtain ⟨more, hmore, hslight⟩ := (aside_answerChange
    (((n.enact entry index).mapStanding fun s =>
      { s with lastApplied := index }).answerCommand index entry.term)
    index entry.term).effects
  refine ⟨enacted ++ told ++ more, ?_, fun effect heffect => ?_⟩
  · rw [applyEntry, answerWaiters_eq, hmore, htold]
    change (n.enact entry index).effects ++ told ++ more = _
    rw [henacted, List.append_assoc, List.append_assoc, List.append_assoc]
  · rw [List.mem_append, List.mem_append] at heffect
    rcases heffect with (hin | hin) | hin
    · exact hsays effect hin
    · have hcommand := hcommand effect hin
      unfold AppliedSays at hcommand ⊢
      rw [← henacts.waiters]
      exact hcommand
    · exact Or.inl (hslight effect hin)

end Node

end Consensus
