import Consensus.Proofs.Mirrored
import Consensus.Proofs.WriteThrough

/-!
# When a change to the log fails

Every change goes to the disk before it is made in memory.  So a change with a single
write that fails has changed nothing.

Two changes may write twice.  What a leader sends can cut the log before it adds to it;
then the log in memory is cut as soon as the disk is, and the two are in step whichever
write fails.  A log that starts over is cut off the disk as well, but it stays in memory
until the disk has moved its boundary too.  If that second write fails, the entries are
gone from the disk and still there in memory.
-/

namespace Consensus

namespace Log

/-- The log keeps its boundary, and nothing but its last entries may be gone. -/
structure Shortens (log log' : Log) : Prop where
  snapshotIndex : log'.snapshotIndex = log.snapshotIndex
  snapshotTerm : log'.snapshotTerm = log.snapshotTerm
  entries : log'.entries <+: log.entries

theorem Shortens.refl (log : Log) : log.Shortens log :=
  ⟨rfl, rfl, List.prefix_rfl⟩

theorem shortens_splice (log : Log) (kept : ℕ) : log.Shortens (log.splice kept []) := by
  refine ⟨rfl, rfl, ?_⟩
  unfold splice
  rw [List.append_nil]
  exact List.take_prefix _ _

end Log

namespace Journal

open Storage (Faithful)
open Storage.Faithful (stored)

variable {σ : Type} [Storage σ] {j j' : Journal σ} {e : Error}

/-! ## Changes that may fail -/

namespace Change

/-- What a leader sends is numbered from an index of the log on. -/
def Fits (log : Log) : Change → Prop
  | appendFromLeader prev sent => prev ≤ log.lastIndex ∧ NumberedFrom prev sent
  | _ => True

/-- A log with entries is to start over, and the disk lets go of them. -/
def Clears (j : Journal σ) : Change → Prop
  | resetTo _ _ => j.log.entries ≠ [] ∧
      ∃ disk, Storage.truncateFrom j.log.firstIndex j.disk = .ok () disk
  | _ => False

end Change

variable [Faithful σ]

/-- The change failed, and memory and disk are still in step. -/
structure Withstood (j j' : Journal σ) : Prop where
  shortens : j.log.Shortens j'.log
  mirrored : j'.Mirrored

theorem Withstood.of_log (h : j'.log = j.log ∧ j'.Mirrored) : j.Withstood j' :=
  ⟨h.1 ▸ .refl j.log, h.2⟩

/-! ## Where each change may fail -/

/-- If its only write fails, a change has changed nothing. -/
theorem Mirrored.ensures_write (h : j.Mirrored) {act : EStateM Error σ Unit}
    {change : Stored → Stored} (hwrites : Storage.Writes stored act change)
    (inMemory : Log → Log) :
    Ensures (onDisk act >>= fun _ => modifyLog inMemory) j (fun _ _ => True)
      fun j' => j'.log = j.log ∧ j'.Mirrored := by
  refine Ensures.bind (Ensures.onPart ((hwrites j.disk).mono ?_ ?_))
  · exact fun _ _ _ => trivial
  · intro disk hdisk
    have hmirrored : Mirrored ⟨j.log, disk⟩ := h.same rfl hdisk
    exact ⟨rfl, hmirrored⟩

theorem Mirrored.ensures_append (h : j.Mirrored) (term : ℕ) (payload : Payload) :
    Ensures (Journal.append term payload) j (fun _ _ => True) j.Withstood :=
  (Journal.ensures_append j term payload).mono (fun _ _ _ => trivial)
    fun _ hj => .of_log ⟨hj.1, h.same hj.1 hj.2⟩

theorem Mirrored.ensures_truncateFrom (h : j.Mirrored) (index : ℕ) :
    Ensures (Journal.truncateFrom index) j (fun _ _ => True) j.Withstood := by
  unfold Journal.truncateFrom
  rw [Ensures.get_bind_iff]
  refine Ensures.ite (fun _ => trivial) fun _ => ?_
  exact (h.ensures_write (Faithful.truncateFrom index) _).mono (fun _ _ hj => hj)
    fun _ hj => .of_log hj

theorem Mirrored.ensures_compactTo (h : j.Mirrored) (index term : ℕ) :
    Ensures (Journal.compactTo index term) j (fun _ _ => True) j.Withstood := by
  unfold Journal.compactTo
  rw [Ensures.get_bind_iff]
  refine Ensures.ite (fun _ => trivial) fun _ => ?_
  exact (h.ensures_write (Faithful.compactTo index) _).mono (fun _ _ hj => hj)
    fun _ hj => .of_log hj

/-- If the log cannot be added to, it may have been cut before, in memory as well as on
the disk. -/
theorem Mirrored.ensures_appendFromLeader (h : j.Mirrored) (hgapless : j.log.Gapless)
    {prev : ℕ} {sent : List Entry} (hprev : prev ≤ j.log.lastIndex)
    (hnumbered : NumberedFrom prev sent) :
    Ensures (Journal.appendFromLeader prev sent) j (fun _ _ => True) j.Withstood := by
  obtain ⟨kept, early, fresh, hmeets⟩ := hgapless.exists_meets hnumbered hprev
  unfold Journal.appendFromLeader
  rw [Ensures.get_bind_iff]
  dsimp only
  rcases hmeets.merge with ⟨hmerge, -⟩ | ⟨hmerge, hlt, -⟩
  · rw [hmerge]
    exact (ensures_extend hgapless h fresh _).mono (fun _ _ _ => trivial)
      fun _ hj => .of_log hj
  · rw [hmerge]
    have hle := hmeets.adjoins.boundary_le
    refine Ensures.andThen ((Journal.ensures_truncateFrom hgapless h hle hlt).mono
      (fun _ _ hj => hj) fun _ hj => .of_log hj) ?_
    rintro - j' ⟨hlog, hmirrored⟩
    have hgapless' : j'.log.Gapless := by
      rw [hlog]
      exact hgapless.splice ⟨hle, hlt.le, .nil kept⟩
    refine (ensures_extend hgapless' hmirrored fresh _).mono (fun _ _ _ => trivial)
      fun j'' hj => ⟨?_, hj.2⟩
    rw [hj.1, hlog]
    exact j.log.shortens_splice kept

/-- If a log cannot start over, it is as before in memory, and on the disk as well
unless that has let go of the entries. -/
theorem Mirrored.ensures_resetTo (h : j.Mirrored) (hgapless : j.log.Gapless)
    (index term : ℕ) :
    Ensures (Journal.resetTo index term) j (fun _ _ => True) fun j' =>
      j'.log = j.log ∧
        (¬ (Change.resetTo index term).Clears j ∧ j'.Mirrored ∨
          (Change.resetTo index term).Clears j ∧ (stored j'.disk).entries = []) := by
  unfold Journal.resetTo
  rw [Ensures.get_bind_iff]
  refine Ensures.ite (fun hsome => ?_) fun hnone => ?_
  · refine Ensures.bind (Ensures.onPart (Ensures.of_runs ?_ ?_))
    · intro _ disk hcut
      have hempty : (stored disk).entries = [] := by
        rw [(Faithful.truncateFrom _ j.disk).ok hcut, h.entries_cut_first hgapless]
      refine Ensures.bind (Ensures.onPart ((Faithful.compactTo index disk).mono
        (fun _ _ _ => trivial) fun disk' hdisk => ⟨rfl, Or.inr ⟨⟨hsome, disk, hcut⟩, ?_⟩⟩))
      change (stored disk').entries = []
      rw [hdisk, hempty]
    · intro e disk hfailed
      have hdisk := (Faithful.truncateFrom _ j.disk).error hfailed
      have hmirrored : Mirrored ⟨j.log, disk⟩ := h.same rfl hdisk
      refine ⟨rfl, Or.inl ⟨?_, hmirrored⟩⟩
      rintro ⟨-, disk', hcut⟩
      exact absurd (hfailed.symm.trans hcut) (by simp)
  · refine (h.ensures_write (Faithful.compactTo index) _).mono (fun _ _ _ => trivial) ?_
    exact fun _ hj => ⟨hj.1, Or.inl ⟨fun hclears => hnone hclears.1, hj.2⟩⟩

/-! ## The exception -/

theorem Mirrored.ensures_change (h : j.Mirrored) (hgapless : j.log.Gapless)
    {change : Change} (hfits : change.Fits j.log) :
    Ensures change.run j (fun _ _ => True) fun j' =>
      ¬ change.Clears j ∧ j.Withstood j' ∨
        change.Clears j ∧ j'.log = j.log ∧ (stored j'.disk).entries = [] := by
  cases change with
  | append term payload =>
      exact ((h.ensures_append term payload).mono (fun _ _ hj => hj)
        fun _ hj => Or.inl ⟨id, hj⟩).andThen fun _ _ _ => trivial
  | appendFromLeader prev sent =>
      exact ((h.ensures_appendFromLeader hgapless hfits.1 hfits.2).mono
        (fun _ _ hj => hj) fun _ hj => Or.inl ⟨id, hj⟩).andThen fun _ _ _ => trivial
  | truncateFrom index =>
      exact (h.ensures_truncateFrom index).mono (fun _ _ hj => hj)
        fun _ hj => Or.inl ⟨id, hj⟩
  | compactTo index term =>
      exact (h.ensures_compactTo index term).mono (fun _ _ hj => hj)
        fun _ hj => Or.inl ⟨id, hj⟩
  | resetTo index term =>
      refine (h.ensures_resetTo hgapless index term).mono (fun _ _ hj => hj) ?_
      rintro j' ⟨hlog, ⟨hkeeps, hmirrored⟩ | hclears⟩
      · exact Or.inl ⟨hkeeps, .of_log ⟨hlog, hmirrored⟩⟩
      · exact Or.inr ⟨hclears.1, hlog, hclears.2⟩

/-- Whichever write fails, a failed change leaves the boundary alone and adds nothing to
the log.  Memory and disk are still in step after it, unless a log with entries was to
start over and the disk had let go of them when it failed. -/
theorem Mirrored.failed_iff (h : j.Mirrored) (hgapless : j.log.Gapless)
    {change : Change} (hfits : change.Fits j.log) (hrun : change.run j = .error e j') :
    j.log.Shortens j'.log ∧ (j'.Mirrored ↔ ¬ change.Clears j) := by
  rcases (h.ensures_change hgapless hfits).error hrun with
    ⟨hkeeps, hwithstood⟩ | ⟨hclears, hlog, hempty⟩
  · exact ⟨hwithstood.shortens, fun _ => hkeeps, fun _ => hwithstood.mirrored⟩
  · refine ⟨hlog ▸ .refl j.log, fun hmirrored => ?_, fun hkeeps => absurd hclears hkeeps⟩
    have hnone : j.log.entries = [] := by
      rw [← hlog, ← hempty]
      exact hmirrored.symm
    cases change with
    | resetTo index term => exact absurd hnone hclears.1
    | _ => exact absurd hclears id

/-- The log of one entry, on a disk that fails at the second write. -/
def oneEntry : Journal Fallible where
  log := ⟨[⟨1, 1, .noop⟩], 0, 0⟩
  disk := ⟨{ entries := [⟨1, 1, .noop⟩] }, [true, false]⟩

/-- It disagrees with what a leader sends, and is cut on both sides.  Where it is to
start over, the entry stays in memory only. -/
theorem failed_oneEntry :
    (∃ e j', (Change.appendFromLeader 0 [⟨2, 1, .noop⟩]).run oneEntry = .error e j' ∧
      j'.log.entries = [] ∧ j'.Mirrored) ∧
    ∃ e j', (Change.resetTo 5 2).run oneEntry = .error e j' ∧
      j'.log = oneEntry.log ∧ ¬ j'.Mirrored := by
  have hgapless : oneEntry.log.Gapless := .cons rfl (.nil 1)
  have hfits : (Change.appendFromLeader 0 [⟨2, 1, .noop⟩]).Fits oneEntry.log :=
    ⟨Nat.zero_le _, .cons rfl (.nil 1)⟩
  refine ⟨⟨_, _, rfl, rfl, ?_⟩, _, _, rfl, rfl, ?_⟩
  · exact (Mirrored.failed_iff (rfl : oneEntry.Mirrored) hgapless hfits rfl).2.mpr id
  · have hclears : (Change.resetTo 5 2).Clears oneEntry := ⟨by decide, _, rfl⟩
    have hany : (Change.resetTo 5 2).Fits oneEntry.log := trivial
    have hiff := Mirrored.failed_iff (rfl : oneEntry.Mirrored) hgapless hany rfl
    exact fun hmirrored => hiff.2.mp hmirrored hclears

end Journal

end Consensus
