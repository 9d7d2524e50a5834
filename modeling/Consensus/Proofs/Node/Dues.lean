import Consensus.Node.Commit
import Consensus.Proofs.Node.Aside
import Consensus.Proofs.Table

/-!
# What is owed to a caller

A caller is owed an answer from the moment it waits until it is told.  Whatever a
node does on the side, and whatever it applies, everybody who waits goes on to
wait or is answered once: answers and waiting callers of a ticket keep their
number.
-/

namespace Consensus

/-- Whether a caller with the ticket is answered. -/
def Effect.Pays (ticket : ℕ) : Effect → Bool
  | .answer found _ => found == ticket
  | _ => false

/-- How many callers with the ticket wait in the table. -/
def Table.holders (t : Table Waiter) (ticket : ℕ) : ℕ :=
  t.values.countP fun w => w.ticket == ticket

namespace Table

variable {t : Table Waiter} {key ticket : ℕ} {w : Waiter}

@[simp] theorem holders_empty (ticket : ℕ) :
    (∅ : Table Waiter).holders ticket = 0 := rfl

theorem holders_insert (hnone : t.get? key = none) (w : Waiter) (ticket : ℕ) :
    (t.insert key w).holders ticket =
      t.holders ticket + if w.ticket = ticket then 1 else 0 := by
  unfold holders
  rw [(values_insert hnone w).countP_eq, List.countP_cons]
  simp only [beq_iff_eq]

theorem Distinct.holders_erase (h : t.Distinct) (hw : t.get? key = some w)
    (ticket : ℕ) : t.holders ticket =
      (t.erase key).holders ticket + if w.ticket = ticket then 1 else 0 := by
  unfold holders
  rw [(h.values_erase hw).countP_eq, List.countP_cons]
  simp only [beq_iff_eq]

end Table

namespace Node

variable {σ : Type} {n n' : Node σ} {ticket : ℕ}

/-- How often the caller with the ticket was answered, or waits still. -/
def dues (n : Node σ) (ticket : ℕ) : ℕ :=
  n.effects.countP (·.Pays ticket) + n.commandWaiters.holders ticket +
    n.changeWaiters.holders ticket

theorem dues_emitAll (n : Node σ) (effects : List Effect) (ticket : ℕ) :
    (n.emitAll effects).dues ticket =
      n.dues ticket + effects.countP (·.Pays ticket) := by
  change (n.effects ++ effects).countP _ + n.commandWaiters.holders ticket +
    n.changeWaiters.holders ticket = _
  rw [List.countP_append, dues]
  omega

/-- Effects that answer nobody cost nothing. -/
theorem dues_of_quiet {more : List Effect} (heffects : n'.effects = n.effects ++ more)
    (hquiet : ∀ effect ∈ more, effect.Pays ticket = false)
    (hcommands : n'.commandWaiters = n.commandWaiters)
    (hchanges : n'.changeWaiters = n.changeWaiters) :
    n'.dues ticket = n.dues ticket := by
  have hnone : more.countP (·.Pays ticket) = 0 := by
    apply List.countP_eq_zero.mpr
    intro effect heffect
    rw [hquiet effect heffect]
    simp
  unfold dues
  rw [heffects, hcommands, hchanges, List.countP_append, hnone, Nat.add_zero]

theorem dues_of_same (heffects : n'.effects = n.effects)
    (hcommands : n'.commandWaiters = n.commandWaiters)
    (hchanges : n'.changeWaiters = n.changeWaiters) :
    n'.dues ticket = n.dues ticket := by
  unfold dues
  rw [heffects, hcommands, hchanges]

/-- Only the number of those who wait for a command counts. -/
theorem dues_withCommands (n : Node σ) (t : Table Waiter) (ticket : ℕ) :
    ({ n with commandWaiters := t } : Node σ).dues ticket +
      n.commandWaiters.holders ticket = n.dues ticket + t.holders ticket := by
  change n.effects.countP _ + t.holders ticket + n.changeWaiters.holders ticket +
    _ = _
  unfold dues
  omega

theorem dues_withChanges (n : Node σ) (t : Table Waiter) (ticket : ℕ) :
    ({ n with changeWaiters := t } : Node σ).dues ticket +
      n.changeWaiters.holders ticket = n.dues ticket + t.holders ticket := by
  change n.effects.countP _ + n.commandWaiters.holders ticket +
    t.holders ticket + _ = _
  unfold dues
  omega

theorem dues_stopReplication (n : Node σ) (ticket : ℕ) :
    n.stopReplication.dues ticket = n.dues ticket := by
  refine dues_of_quiet (n := n) rfl ?_ rfl rfl
  intro effect heffect
  obtain ⟨peer, -, rfl⟩ := List.mem_map.mp heffect
  rfl

theorem dues_syncPeers (n : Node σ) (targets : NodeSet) (nextIndex : ℕ)
    (ticket : ℕ) : (n.syncPeers targets nextIndex).dues ticket =
      n.dues ticket := by
  refine dues_of_quiet (n := n) rfl ?_ rfl rfl
  intro effect heffect
  rw [List.mem_append, List.mem_map, List.mem_map] at heffect
  rcases heffect with ⟨peer, -, rfl⟩ | ⟨peer, -, rfl⟩ <;> rfl

/-- Everybody in a table is answered. -/
theorem countP_pays_map (t : Table Waiter) (answer : Answer) (ticket : ℕ) :
    (t.values.map fun w => Effect.answer w.ticket answer).countP
      (·.Pays ticket) = t.holders ticket := by
  rw [List.countP_map]
  rfl

theorem dues_dismissWaiters (n : Node σ) (command change : Answer)
    (ticket : ℕ) :
    (n.dismissWaiters command change).dues ticket = n.dues ticket := by
  change (n.effects ++ (n.commandWaiters.values.map (fun w =>
    Effect.answer w.ticket command) ++ n.changeWaiters.values.map fun w =>
      Effect.answer w.ticket change)).countP (·.Pays ticket) + 0 + 0 = _
  rw [List.countP_append, List.countP_append, countP_pays_map, countP_pays_map,
    dues]
  omega

theorem dues_emit_of_quiet (n : Node σ) {effect : Effect}
    (hquiet : effect.Pays ticket = false) :
    (n.emit effect).dues ticket = n.dues ticket := by
  refine dues_of_quiet (n := n) rfl ?_ rfl rfl
  intro found hfound
  rw [List.mem_singleton.mp hfound]
  exact hquiet

theorem dues_emit_answer (n : Node σ) (found : ℕ) (answer : Answer)
    (ticket : ℕ) : (n.emit (.answer found answer)).dues ticket =
      n.dues ticket + if found = ticket then 1 else 0 := by
  change (n.emitAll [.answer found answer]).dues ticket = _
  rw [dues_emitAll, List.countP_singleton]
  simp only [Effect.Pays, beq_iff_eq]

theorem dues_afterRoleChange (n : Node σ) (before : Role) (ticket : ℕ) :
    (n.afterRoleChange before).dues ticket = n.dues ticket := by
  unfold afterRoleChange
  split
  · rfl
  · rw [dues_emit_of_quiet _ rfl, dues_dismissWaiters, dues_stopReplication]

/-- Whoever waits when the node stops is answered then. -/
theorem countP_stop (hnew : n.effects = []) (ticket : ℕ) :
    n.stop.effects.countP (·.Pays ticket) =
      n.commandWaiters.holders ticket + n.changeWaiters.holders ticket := by
  have hdues : n.stop.dues ticket = n.dues ticket := by
    unfold stop
    rw [dues_dismissWaiters, dues_stopReplication]
  have hleft : n.stop.dues ticket =
      n.stop.effects.countP (·.Pays ticket) + 0 + 0 := rfl
  unfold dues at hdues hleft
  rw [hnew, List.countP_nil] at hdues
  omega

/-! ## Applying an entry -/

theorem dues_answerCommand (h : n.commandWaiters.Distinct) (index term : ℕ)
    (ticket : ℕ) : (n.answerCommand index term).dues ticket = n.dues ticket := by
  unfold answerCommand
  split
  · rfl
  · next w hw =>
    let told := n.emit (.answer w.ticket
      (if w.term = term then .applied index else .refused .leadershipLost))
    have hpaid : told.dues ticket = _ := n.dues_emit_answer w.ticket _ ticket
    have hgone := h.holders_erase hw ticket
    have hleft : _ + n.commandWaiters.holders ticket = _ :=
      told.dues_withCommands (n.commandWaiters.erase index) ticket
    apply Nat.add_right_cancel (hleft.trans _)
    rw [hpaid, hgone]
    omega

theorem dues_answerChange (h : n.changeWaiters.Distinct) (index term : ℕ)
    (ticket : ℕ) : (n.answerChange index term).dues ticket = n.dues ticket := by
  unfold answerChange
  split
  · rfl
  · next w hw =>
    let told := n.emit (.answer w.ticket (.change
      (if w.term = term then .done n.self else .refused n.standing.leader)))
    have hpaid : told.dues ticket = _ := n.dues_emit_answer w.ticket _ ticket
    have hgone := h.holders_erase hw ticket
    have hleft : _ + n.changeWaiters.holders ticket = _ :=
      told.dues_withChanges (n.changeWaiters.erase index) ticket
    apply Nat.add_right_cancel (hleft.trans _)
    rw [hpaid, hgone]
    omega

theorem changeWaiters_answerCommand (n : Node σ) (index term : ℕ) :
    (n.answerCommand index term).changeWaiters = n.changeWaiters := by
  unfold answerCommand
  split
  · rfl
  · rfl

/-- Doing what an entry says leaves all callers alone. -/
theorem enact_waiters [Counting] (n : Node σ) (entry : Entry) (index ticket : ℕ) :
    (n.enact entry index).dues ticket = n.dues ticket ∧
      (n.enact entry index).commandWaiters = n.commandWaiters ∧
      (n.enact entry index).changeWaiters = n.changeWaiters := by
  unfold enact
  split
  · exact ⟨rfl, rfl, rfl⟩
  · exact ⟨n.dues_emit_of_quiet rfl, rfl, rfl⟩
  · unfold adoptMembers
    dsimp only
    split
    · exact ⟨dues_syncPeers _ _ _ _, rfl, rfl⟩
    · exact ⟨rfl, rfl, rfl⟩

/-- Applying an entry answers whoever waits at its index. -/
theorem applyEntry_waiters [Counting] (n : Node σ) (entry : Entry) (index : ℕ) :
    (n.applyEntry entry index).commandWaiters = n.commandWaiters.erase index ∧
      (n.applyEntry entry index).changeWaiters = n.changeWaiters.erase index := by
  obtain ⟨-, hcommands, hchanges⟩ := n.enact_waiters entry index 0
  have hanswer : ∀ m : Node σ, (m.answerWaiters index entry.term).commandWaiters =
        m.commandWaiters.erase index ∧
      (m.answerWaiters index entry.term).changeWaiters =
        m.changeWaiters.erase index := by
    intro m
    have hcommand : (m.answerCommand index entry.term).commandWaiters =
        m.commandWaiters.erase index := by
      unfold answerCommand
      split
      · next hnone => exact (Table.erase_of_get? hnone).symm
      · rfl
    rw [answerWaiters_eq, ← hcommand, ← m.changeWaiters_answerCommand index entry.term]
    unfold answerChange
    split
    · next hnone => exact ⟨rfl, (Table.erase_of_get? hnone).symm⟩
    · exact ⟨rfl, rfl⟩
  rw [← hcommands, ← hchanges]
  exact hanswer ((n.enact entry index).mapStanding fun s =>
    { s with lastApplied := index })

theorem dues_applyEntry [Counting] (hcommands : n.commandWaiters.Distinct)
    (hchanges : n.changeWaiters.Distinct) (entry : Entry) (index ticket : ℕ) :
    (n.applyEntry entry index).dues ticket = n.dues ticket := by
  obtain ⟨hdues, hsame, hsame'⟩ := n.enact_waiters entry index ticket
  let enacted := (n.enact entry index).mapStanding fun s =>
    { s with lastApplied := index }
  have hcommand : (enacted.answerCommand index entry.term).dues ticket =
      enacted.dues ticket := by
    apply dues_answerCommand
    exact hsame.symm ▸ hcommands
  have hchange : (enacted.answerCommand index entry.term).changeWaiters =
      n.changeWaiters :=
    (enacted.changeWaiters_answerCommand index entry.term).trans hsame'
  rw [applyEntry, answerWaiters_eq, dues_answerChange (hchange ▸ hchanges),
    hcommand]
  exact hdues

end Node

end Consensus
