import Consensus.Proofs.Node.Confirming

/-!
# What callers are told

In one deed a node tells callers that the leadership was lost, or that their entry is
applied, or it answers the caller that came with the event.  Nobody else is told
anything.
-/

namespace Consensus.Node

variable {σ : Type} {n n' : Node σ} {event : Event} {ticket : ℕ} {answer : Answer}

/-! ## Deeds that tell nobody anything -/

theorem answer_mem_append {effects : List Effect}
    (h : .answer ticket answer ∈ n.effects ++ effects)
    (hnone : ∀ ticket answer, .answer ticket answer ∉ effects) :
    .answer ticket answer ∈ n.effects :=
  (List.mem_append.mp h).resolve_right (hnone ticket answer)

theorem answer_mem_stopReplication (h : .answer ticket answer ∈ n.stopReplication.effects) :
    .answer ticket answer ∈ n.effects := by
  refine answer_mem_append h fun _ _ hin => ?_
  obtain ⟨peer, -, hpeer⟩ := List.mem_map.mp hin
  exact Effect.noConfusion hpeer

theorem answer_mem_syncPeers (targets : NodeSet) (nextIndex : ℕ)
    (h : .answer ticket answer ∈ (n.syncPeers targets nextIndex).effects) :
    .answer ticket answer ∈ n.effects := by
  refine answer_mem_append h fun _ _ hin => ?_
  rw [List.mem_append, List.mem_map, List.mem_map] at hin
  rcases hin with ⟨peer, -, hpeer⟩ | ⟨peer, -, hpeer⟩
  · exact Effect.noConfusion hpeer
  · exact Effect.noConfusion hpeer

theorem answer_mem_emit {effect : Effect}
    (h : .answer ticket answer ∈ (n.emit effect).effects) :
    .answer ticket answer ∈ n.effects ∨ effect = .answer ticket answer :=
  (List.mem_append.mp h).imp_right fun hin => (List.mem_singleton.mp hin).symm

theorem answer_mem_enact {entry : Entry} {index : ℕ}
    (h : .answer ticket answer ∈ (n.enact entry index).effects) :
    .answer ticket answer ∈ n.effects := by
  unfold enact at h
  split at h
  · exact h
  · exact (answer_mem_emit h).resolve_right fun hsame => Effect.noConfusion hsame
  · unfold adoptMembers at h
    dsimp only at h
    split at h
    · exact answer_mem_syncPeers _ (n.log.lastIndex + 1) h
    · exact h

/-! ## Losing callers -/

theorem answer_mem_dismissWaiters {command change : Answer}
    (h : .answer ticket answer ∈ (n.dismissWaiters command change).effects) :
    .answer ticket answer ∈ n.effects ∨ answer = command ∨ answer = change := by
  rcases List.mem_append.mp h with hbefore | hin
  · exact Or.inl hbefore
  · rw [List.mem_append, List.mem_map, List.mem_map] at hin
    rcases hin with ⟨w, -, hsame⟩ | ⟨w, -, hsame⟩
    · exact Or.inr (Or.inl (Effect.answer.inj hsame).2.symm)
    · exact Or.inr (Or.inr (Effect.answer.inj hsame).2.symm)

/-- A node that stops tells those who wait that it has shut down. -/
theorem answer_mem_stop (h : .answer ticket answer ∈ n.stop.effects) :
    .answer ticket answer ∈ n.effects ∨ answer = .refused .shutdown ∨
      answer = .change (.refused none) :=
  (answer_mem_dismissWaiters h).imp_left answer_mem_stopReplication

/-- What a caller may be told in one deed, and how far the node has applied then. -/
inductive Gives (event : Event) (n : Node σ) (applied : ℕ) : ℕ → Answer → Prop
  | deposed (ticket : ℕ) : Gives event n applied ticket (.refused .leadershipLost)
  | replaced (ticket : ℕ) (leader : Option ℕ) :
      Gives event n applied ticket (.change (.refused leader))
  | applied {w : Waiter} (hnext : applied = n.standing.lastApplied + 1)
      (hw : n.commandWaiters.get? applied = some w) :
      Gives event n applied w.ticket (.applied applied)
  | done {w : Waiter} (leader : ℕ) (hnext : applied = n.standing.lastApplied + 1)
      (hw : n.changeWaiters.get? applied = some w) :
      Gives event n applied w.ticket (.change (.done leader))
  | answered {ticket : ℕ} {answer : Answer} (hanswers : n.Answers event ticket answer) :
      Gives event n applied ticket answer

/-- Whoever waits at a node that loses its leadership is told so. -/
theorem answer_mem_turned {s : Standing} {disk : σ}
    (h : .answer ticket answer ∈ (n.turned s disk).effects) :
    .answer ticket answer ∈ n.effects ∨ answer = .refused .leadershipLost ∨
      ∃ leader, answer = .change (.refused leader) := by
  unfold turned afterRoleChange at h
  split at h
  · exact Or.inl h
  · have hlost := (answer_mem_emit h).resolve_right fun hsame => Effect.noConfusion hsame
    rcases answer_mem_dismissWaiters hlost with hbefore | hcommand | hchange
    · exact Or.inl (answer_mem_stopReplication hbefore)
    · exact Or.inr (Or.inl hcommand)
    · exact Or.inr (Or.inr ⟨_, hchange⟩)

/-! ## Applying -/

/-- Whoever is told of a command at an index waits for it there. -/
theorem answer_mem_answerCommand {index term : ℕ}
    (h : .answer ticket answer ∈ (n.answerCommand index term).effects) :
    .answer ticket answer ∈ n.effects ∨
      ∃ w, n.commandWaiters.get? index = some w ∧ w.ticket = ticket ∧
        answer = if w.term = term then .applied index else .refused .leadershipLost := by
  unfold answerCommand at h
  split at h
  · exact Or.inl h
  · next w hw =>
    refine (answer_mem_emit h).imp_right fun hnow => ?_
    obtain ⟨hticket, hanswer⟩ := Effect.answer.inj hnow
    exact ⟨w, hw, hticket, hanswer.symm⟩

/-- Whoever is told of a change at an index waits for it there. -/
theorem answer_mem_answerChange {index term : ℕ}
    (h : .answer ticket answer ∈ (n.answerChange index term).effects) :
    .answer ticket answer ∈ n.effects ∨
      ∃ w, n.changeWaiters.get? index = some w ∧ w.ticket = ticket ∧
        answer = .change
          (if w.term = term then .done n.self else .refused n.standing.leader) := by
  unfold answerChange at h
  split at h
  · exact Or.inl h
  · next w hw =>
    refine (answer_mem_emit h).imp_right fun hnow => ?_
    obtain ⟨hticket, hanswer⟩ := Effect.answer.inj hnow
    exact ⟨w, hw, hticket, hanswer.symm⟩

/-- Applying an entry tells only those anything who wait at its index. -/
theorem answer_mem_applyEntry {entry : Entry} {index : ℕ}
    (h : .answer ticket answer ∈ (n.applyEntry entry index).effects) :
    .answer ticket answer ∈ n.effects ∨
      (∃ w, n.commandWaiters.get? index = some w ∧ w.ticket = ticket ∧
        answer = if w.term = entry.term then .applied index
          else .refused .leadershipLost) ∨
      ∃ w reply, n.changeWaiters.get? index = some w ∧ w.ticket = ticket ∧
        answer = .change reply ∧
          ((∃ leader, reply = .done leader) ∨ ∃ leader, reply = .refused leader) := by
  let enacted := (n.enact entry index).mapStanding fun s => { s with lastApplied := index }
  obtain ⟨-, hcommands, hchanges⟩ := n.enact_waiters entry index ticket
  change .answer ticket answer ∈
    ((enacted.answerCommand index entry.term).answerChange index entry.term).effects at h
  rcases answer_mem_answerChange h with hcommand | ⟨w, hw, hticket, hanswer⟩
  · rcases answer_mem_answerCommand hcommand with hbefore | ⟨w, hw, htold⟩
    · exact Or.inl (answer_mem_enact hbefore)
    · exact Or.inr (Or.inl ⟨w, hcommands ▸ hw, htold⟩)
  · rw [changeWaiters_answerCommand] at hw
    refine Or.inr (Or.inr ⟨w, _, hchanges ▸ hw, hticket, hanswer, ?_⟩)
    split
    · exact Or.inl ⟨_, rfl⟩
    · exact Or.inr ⟨_, rfl⟩

/-! ## Deeds -/

variable [Storage σ]

/-- Taking an event in, a node tells nobody anything but by turning. -/
theorem Opens.answer_mem (h : Opens event n n') (hin : .answer ticket answer ∈ n'.effects) :
    .answer ticket answer ∈ n.effects ∨
      ∃ s disk, n.Turns event s ∧ n' = n.turned s disk := by
  cases h with
  | turned hturns => exact Or.inr ⟨_, _, hturns, rfl⟩
  | waited =>
      exact Or.inl
        ((answer_mem_emit hin).resolve_right fun hsame => Effect.noConfusion hsame)
  | crowned =>
      have hstopped := answer_mem_syncPeers _ (n.log.lastIndex + 1) hin
      exact Or.inl (answer_mem_stopReplication hstopped)
  | proposed =>
      have hbefore := answer_mem_syncPeers _ (n.log.lastIndex + 1) hin
      exact Or.inl hbefore
  | _ => exact Or.inl hin

/-- Following an event up, a node tells nobody anything but by applying an entry, by
retiring, and by answering who came with the event. -/
theorem Closes.answer_mem (h : Closes event n n') (hin : .answer ticket answer ∈ n'.effects) :
    .answer ticket answer ∈ n.effects ∨
      (∃ entry, n.log.get? (n.standing.lastApplied + 1) = some entry ∧
        n' = n.applyEntry entry (n.standing.lastApplied + 1)) ∨
      (n.self ∉ n.membership.committed ∧ n' = n.turned n.retiring n.disk) ∨
      n.Answers event ticket answer := by
  cases h with
  | applied _ hentry => exact Or.inr (Or.inl ⟨_, hentry, rfl⟩)
  | retired _ hself => exact Or.inr (Or.inr (Or.inl ⟨hself, rfl⟩))
  | compacted => exact Or.inl hin
  | campaigned =>
      refine Or.inl (answer_mem_append hin fun _ _ hmore => ?_)
      obtain ⟨peer, -, hpeer⟩ := List.mem_map.mp hmore
      exact Effect.noConfusion hpeer
  | announced | dispatched =>
      exact Or.inl
        ((answer_mem_emit hin).resolve_right fun hsame => Effect.noConfusion hsame)
  | answered hanswers =>
      rcases answer_mem_emit hin with hbefore | hnow
      · exact Or.inl hbefore
      · obtain ⟨rfl, rfl⟩ := Effect.answer.inj hnow
        exact Or.inr (Or.inr (Or.inr hanswers))

/-- Taking an event in, a node tells nobody anything but that the leadership was
lost. -/
theorem Opens.gives (h : Opens event n n') (hin : .answer ticket answer ∈ n'.effects) :
    .answer ticket answer ∈ n.effects ∨ answer = .refused .leadershipLost ∨
      ∃ leader, answer = .change (.refused leader) := by
  rcases h.answer_mem hin with hbefore | ⟨s, disk, -, rfl⟩
  · exact Or.inl hbefore
  · exact answer_mem_turned hin

theorem Closes.gives (h : Closes event n n') (hin : .answer ticket answer ∈ n'.effects) :
    .answer ticket answer ∈ n.effects ∨
      n.Gives event n'.standing.lastApplied ticket answer := by
  rcases h.answer_mem hin with hbefore | ⟨entry, -, rfl⟩ | ⟨-, rfl⟩ | hanswers
  · exact Or.inl hbefore
  · rw [(enacted_applyEntry n entry _).standing]
    refine (answer_mem_applyEntry hin).imp_right ?_
    rintro (⟨w, hw, rfl, rfl⟩ | ⟨w, reply, hw, rfl, rfl, ⟨leader, rfl⟩ | ⟨leader, rfl⟩⟩)
    · split
      · exact .applied rfl hw
      · exact .deposed _
    · exact .done _ rfl hw
    · exact .replaced _ _
  · rcases answer_mem_turned hin with hbefore | rfl | ⟨leader, rfl⟩
    · exact Or.inl hbefore
    · exact Or.inr (.deposed _)
    · exact Or.inr (.replaced _ _)
  · exact Or.inr (.answered hanswers)

end Consensus.Node
