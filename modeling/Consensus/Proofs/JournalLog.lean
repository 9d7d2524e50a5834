import Consensus.Proofs.Ensures
import Consensus.Proofs.Gapless
import Consensus.Proofs.Node.Course

/-!
# What a journal does to its log

On any disk, however unreliable, the log in memory becomes what a change is meant
to make of it, or the change fails.  A log without a gap gets none.
-/

namespace Consensus.Journal

variable {σ α : Type} [Storage σ] {j j' : Journal σ}

omit [Storage σ] in
/-- What comes after a write of which nothing is known but that it worked. -/
theorem ensures_log_write {act : EStateM Error σ Unit} {f : Unit → Act σ α}
    {Q : α → Journal σ → Prop}
    (h : ∀ disk, Ensures (f ()) ⟨j.log, disk⟩ Q fun _ => True) :
    Ensures (onDisk act >>= f) j Q fun _ => True := by
  apply Ensures.bind
  apply Ensures.onPart
  apply Ensures.of_runs
  · intro _ disk _
    exact h disk
  · intro _ _ _
    trivial

theorem log_append {term index : ℕ} {payload : Payload}
    (hrun : append term payload j = .ok index j') :
    index = j.log.lastIndex + 1 ∧
      j'.log = j.log.push ⟨term, index, payload⟩ := by
  have hruns : Ensures (append term payload) j (fun index j' =>
      index = j.log.lastIndex + 1 ∧
        j'.log = j.log.push ⟨term, index, payload⟩) fun _ => True := by
    unfold append
    rw [Ensures.get_bind_iff]
    apply ensures_log_write
    intro disk
    exact ⟨rfl, rfl⟩
  exact hruns.ok hrun

theorem ensures_log_truncateFrom {kept : ℕ} (hle : j.log.snapshotIndex ≤ kept)
    (hlt : kept < j.log.lastIndex) :
    Ensures (truncateFrom (kept + 1)) j
      (fun _ j' => j'.log = j.log.splice kept []) fun _ => True := by
  unfold truncateFrom
  rw [Ensures.get_bind_iff]
  apply Ensures.ite
  · intro hout
    omega
  · intro _
    apply ensures_log_write
    intro disk
    exact Log.takeBefore_succ j.log kept

/-- The fresh entries that a leader sent come at the end. -/
theorem ensures_log_extend (fresh : List Entry) (reach : ℕ) :
    Ensures (do
        if fresh ≠ [] then
          onDisk (Storage.append fresh)
          modifyLog fun log => { log with entries := log.entries ++ fresh }
        return reach : Act σ ℕ) j
      (fun index j' => index = reach ∧
        j'.log = { j.log with entries := j.log.entries ++ fresh })
      fun _ => True := by
  apply Ensures.ite
  · intro _
    apply ensures_log_write
    intro disk
    exact ⟨rfl, rfl⟩
  · intro hnone
    rw [not_not.mp hnone, List.append_nil]
    exact ⟨rfl, rfl⟩

/-- What a leader sends replaces what comes after the index that is kept, and its end
is answered. -/
theorem log_appendFromLeader (hgapless : j.log.Gapless) {prev kept reach : ℕ}
    {sent early fresh : List Entry}
    (hmeets : j.log.Meets prev sent kept early fresh)
    (hrun : appendFromLeader prev sent j = .ok reach j') :
    reach = prev + sent.length ∧ j'.log = j.log.splice kept fresh := by
  have hruns : Ensures (appendFromLeader prev sent) j
      (fun reach j' => reach = prev + sent.length ∧
        j'.log = j.log.splice kept fresh) fun _ => True := by
    unfold appendFromLeader
    rw [Ensures.get_bind_iff]
    dsimp only
    rcases hmeets.merge with ⟨hmerge, rfl⟩ | ⟨hmerge, hlt, -⟩
    · rw [hmerge, hgapless.splice_lastIndex]
      exact ensures_log_extend fresh _
    · rw [hmerge]
      have hcut := ensures_log_truncateFrom (σ := σ) hmeets.adjoins.boundary_le hlt
      refine Ensures.andThen hcut fun _ j' hlog => ?_
      refine (ensures_log_extend fresh _).imp (fun reach j'' hextended => ?_)
      obtain ⟨hreach, hlog'⟩ := hextended
      rw [hlog', hlog, Log.splice, Log.splice, List.append_nil]
      exact ⟨hreach, rfl⟩
  exact hruns.ok hrun

theorem log_compactTo {index term : ℕ} (hlt : j.log.snapshotIndex < index)
    (hrun : compactTo index term j = .ok () j') :
    j'.log = j.log.dropThrough index term := by
  have hruns : Ensures (compactTo index term) j
      (fun _ j' => j'.log = j.log.dropThrough index term) fun _ => True := by
    unfold compactTo
    rw [Ensures.get_bind_iff]
    apply Ensures.ite
    · intro hle
      exact absurd hle hlt.not_ge
    · intro _
      apply ensures_log_write
      intro disk
      rfl
  exact hruns.ok hrun

theorem log_resetTo {index term : ℕ}
    (hrun : resetTo index term j = .ok () j') : j'.log = ⟨[], index, term⟩ := by
  have hcompact : ∀ j : Journal σ, Ensures (onDisk (Storage.compactTo index) >>=
      fun _ => modifyLog fun _ => ⟨[], index, term⟩ : Act σ Unit) j
        (fun _ j' => j'.log = ⟨[], index, term⟩) fun _ => True := by
    intro j
    apply ensures_log_write
    intro disk
    rfl
  have hruns : Ensures (resetTo index term) j
      (fun _ j' => j'.log = ⟨[], index, term⟩) fun _ => True := by
    unfold resetTo
    rw [Ensures.get_bind_iff]
    apply Ensures.ite
    · intro _
      apply ensures_log_write
      intro disk
      exact hcompact _
    · intro _
      exact hcompact j
  exact hruns.ok hrun

/-- A log that gets the base of a snapshot starts over if it disagrees with it. -/
theorem log_rebase {index term : ℕ} (hlt : j.log.snapshotIndex < index)
    (hrun : rebase index term j = .ok () j') :
    j.log.termAt? index = some term ∧ j'.log = j.log.dropThrough index term ∨
      j.log.termAt? index ≠ some term ∧ j'.log = ⟨[], index, term⟩ := by
  rw [rebase_apply] at hrun
  split at hrun
  · next hterm => exact Or.inl ⟨hterm, log_compactTo hlt hrun⟩
  · next hterm => exact Or.inr ⟨hterm, log_resetTo hrun⟩

theorem gapless_rebase (hgapless : j.log.Gapless) {index term : ℕ}
    (hlt : j.log.snapshotIndex < index)
    (hrun : rebase index term j = .ok () j') :
    j'.log.Gapless ∧ j'.log.snapshotIndex = index := by
  rcases log_rebase hlt hrun with ⟨-, hlog⟩ | ⟨-, hlog⟩
  · rw [hlog]
    exact ⟨hgapless.dropThrough hlt.le term, rfl⟩
  · rw [hlog]
    exact ⟨Log.gapless_base index term, rfl⟩

end Consensus.Journal
