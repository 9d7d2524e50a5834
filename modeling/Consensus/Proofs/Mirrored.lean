import Consensus.Proofs.Journal
import Consensus.Proofs.Recorder
import Consensus.Proofs.SoundLog
import Mathlib.Data.List.TakeWhile

/-!
# Logs and their disks

A sound log and the entries on its disk stay the same through every change that
works.  Where a write fails the log on the disk is still the one in memory, which
may have been cut before; only a log that starts over may be gone from the disk
and still be there in memory.

What is read off a disk begins where the snapshot ends, however far the entries
go back.  So a snapshot that is there before the entries that it covers are gone
has moved the boundary already.
-/

namespace Consensus

/-! ## Reading the log -/

namespace Stored

/-- The index where the snapshot ends. -/
def boundary (s : Stored) : ℕ := (s.snapshot.map (·.index)).getD 0

/-- The term in which the snapshot ends. -/
def boundaryTerm (s : Stored) : ℕ := (s.snapshot.map (·.term)).getD 0

/-- The members that the snapshot has, or those given if there is none. -/
def base (s : Stored) (initial : NodeSet) : NodeSet :=
  (s.snapshot.map (·.members)).getD initial

/-- The log that is read: the entries that the snapshot covers are passed over. -/
def log (s : Stored) : Log where
  entries := s.entries.drop
    (s.entries.takeWhile fun e => decide (e.index ≤ s.boundary)).length
  snapshotIndex := s.boundary
  snapshotTerm := s.boundaryTerm

/-- A node can start: the log has no flaw and no term beyond the stored one, and
the snapshot is one of a consumer. -/
structure Sane (s : Stored) : Prop where
  sound : s.log.Sound
  within : s.log.Within s.hardState.currentTerm
  written : ∀ snapshot, s.snapshot = some snapshot → snapshot.Written

variable {s : Stored} {log : Log}

theorem boundary_of_snapshot {snapshot : Snapshot}
    (h : s.snapshot = some snapshot) :
    s.boundary = snapshot.index ∧ s.boundaryTerm = snapshot.term := by
  unfold boundary boundaryTerm
  rw [h]
  exact ⟨rfl, rfl⟩

theorem base_of_snapshot {snapshot : Snapshot} (h : s.snapshot = some snapshot)
    (initial : NodeSet) : s.base initial = snapshot.members := by
  unfold base
  rw [h]
  rfl

theorem base_congr {s' : Stored} (h : s'.snapshot = s.snapshot)
    (initial : NodeSet) : s'.base initial = s.base initial := by
  unfold base
  rw [h]

/-- The snapshot drops what it covers of a sound log. -/
theorem log_eq_dropThrough (h : s.entries = log.entries) (hsound : log.Sound) :
    s.log = log.dropThrough s.boundary s.boundaryTerm := by
  unfold Stored.log Log.dropThrough
  rw [h, hsound.numbered.takeWhile_index_le, List.length_take]
  congr 1
  rcases le_total (s.boundary - log.snapshotIndex) log.entries.length with
    hle | hle
  · rw [min_eq_left hle]
  · rw [min_eq_right hle, List.drop_length, List.drop_eq_nil_of_le hle]

theorem log_eq (h : s.entries = log.entries) (hsound : log.Sound)
    (hindex : s.boundary = log.snapshotIndex)
    (hterm : s.boundaryTerm = log.snapshotTerm) : s.log = log := by
  rw [log_eq_dropThrough h hsound, hindex, hterm, Log.dropThrough, Nat.sub_self,
    List.drop_zero]

theorem log_of_nil (h : s.entries = []) :
    s.log = ⟨[], s.boundary, s.boundaryTerm⟩ := by
  unfold Stored.log
  rw [h]
  rfl

/-- What is passed over, and what is read. -/
theorem entries_eq (s : Stored) : s.entries =
    (s.entries.takeWhile fun e => decide (e.index ≤ s.boundary)) ++
      s.log.entries := by
  let covered := s.entries.takeWhile fun e => decide (e.index ≤ s.boundary)
  have hprefix : covered = s.entries.take covered.length :=
    List.prefix_iff_eq_take.mp (List.takeWhile_prefix _)
  calc s.entries
    _ = s.entries.take covered.length ++ s.entries.drop covered.length :=
      (List.take_append_drop _ _).symm
    _ = covered ++ s.log.entries := by
      rw [← hprefix]
      rfl

theorem index_le_of_covered {entry : Entry} (hentry : entry ∈
      s.entries.takeWhile fun e => decide (e.index ≤ s.boundary)) :
    entry.index ≤ s.boundary := by
  have hle := List.mem_takeWhile_imp hentry
  exact of_decide_eq_true hle

/-- An entry beyond the snapshot is read. -/
theorem mem_log {entry : Entry} (hentry : entry ∈ s.entries)
    (hlt : s.boundary < entry.index) : entry ∈ s.log.entries := by
  rw [entries_eq] at hentry
  rcases List.mem_append.mp hentry with hcovered | hread
  · exact absurd (index_le_of_covered hcovered) (not_le.mpr hlt)
  · exact hread

/-- Dropping what the snapshot covers leaves what is read. -/
theorem drop_boundary (h : NumberedFrom s.boundary s.log.entries) :
    s.drop s.boundary = { s with entries := s.log.entries } := by
  unfold Stored.drop
  rw [h.filter_eq_drop]
  rfl

end Stored

/-! ## Changing the log -/

namespace Journal

open Storage (Faithful)
open Storage.Faithful (stored)

variable {σ : Type} [Storage σ] [Faithful σ] {j : Journal σ}

/-- The disk holds the entries of the log. -/
def Mirrored (j : Journal σ) : Prop := (stored j.disk).entries = j.log.entries

theorem Mirrored.append (h : j.Mirrored) {j' : Journal σ} {entries : List Entry}
    (hlog : j'.log.entries = j.log.entries ++ entries)
    (hdisk : stored j'.disk = (stored j.disk).append entries) : j'.Mirrored := by
  unfold Mirrored at h ⊢
  rw [hlog, hdisk, ← h]
  rfl

theorem Mirrored.same (h : j.Mirrored) {j' : Journal σ} (hlog : j'.log = j.log)
    (hdisk : stored j'.disk = stored j.disk) : j'.Mirrored := by
  unfold Mirrored at h ⊢
  rw [hlog, hdisk, h]

/-- Cut at its first index, the log is gone from the disk. -/
theorem Mirrored.entries_cut_first (h : j.Mirrored) (hgapless : j.log.Gapless) :
    ((stored j.disk).cut j.log.firstIndex).entries = [] := by
  change (stored j.disk).entries.filter _ = []
  rw [h, NumberedFrom.filter_index_lt hgapless, Log.firstIndex_eq,
    Nat.add_sub_cancel_left, Nat.sub_self, List.take_zero]

theorem ensures_truncateFrom (hgapless : j.log.Gapless) (h : j.Mirrored) {kept : ℕ}
    (hle : j.log.snapshotIndex ≤ kept) (hlt : kept < j.log.lastIndex) :
    Ensures (truncateFrom (kept + 1)) j
      (fun _ j' => j'.log = j.log.splice kept [] ∧ j'.Mirrored)
      fun j' => j'.log = j.log ∧ j'.Mirrored := by
  unfold truncateFrom
  rw [Ensures.get_bind_iff]
  refine Ensures.ite (fun hout => by omega) fun _ => ?_
  refine Ensures.bind (Ensures.onPart ((Faithful.truncateFrom _ j.disk).mono ?_
    fun _ hdisk => ⟨rfl, h.same rfl hdisk⟩))
  intro _ disk hdisk
  refine ⟨Log.takeBefore_succ j.log kept, ?_⟩
  change (stored disk).entries = (j.log.takeBefore (kept + 1)).entries
  rw [hdisk]
  change (stored j.disk).entries.filter _ = _
  rw [h, NumberedFrom.filter_index_lt hgapless]
  rfl

/-- The fresh entries that a leader sent come after those that the log keeps. -/
theorem ensures_extend (hgapless : j.log.Gapless) (h : j.Mirrored)
    (fresh : List Entry) (reach : ℕ) :
    Ensures (do
        if fresh ≠ [] then
          onDisk (Storage.append fresh)
          modifyLog fun log => { log with entries := log.entries ++ fresh }
        return reach : Act σ ℕ) j
      (fun reached j' => reached = reach ∧
        j'.log = j.log.splice j.log.lastIndex fresh ∧ j'.Mirrored)
      fun j' => j'.log = j.log ∧ j'.Mirrored := by
  rw [hgapless.splice_lastIndex]
  refine Ensures.ite (fun _ => ?_) fun hnone => ?_
  · refine Ensures.bind (Ensures.onPart ((Faithful.append fresh j.disk).mono ?_
      fun _ hdisk => ⟨rfl, h.same rfl hdisk⟩))
    exact fun _ _ hdisk => ⟨rfl, rfl, h.append rfl hdisk⟩
  · rw [not_not.mp hnone, List.append_nil]
    exact ⟨rfl, rfl, h⟩

/-- What a leader sends replaces what comes after the index that is kept.  If that
fails, nothing that is committed is lost. -/
theorem ensures_appendFromLeader (hsound : j.log.Sound) (h : j.Mirrored)
    {committed kept prev : ℕ} {sent early fresh : List Entry}
    (hjoins : j.log.Joins committed sent kept early fresh) :
    Ensures (appendFromLeader prev sent) j
      (fun reach j' => reach = prev + sent.length ∧
        j'.log = j.log.splice kept fresh ∧ j'.Mirrored)
      fun j' => (j'.log = j.log ∨
        committed ≤ kept ∧ j'.log = j.log.splice kept []) ∧ j'.Mirrored := by
  unfold appendFromLeader
  rw [Ensures.get_bind_iff]
  dsimp only
  rcases hjoins.merge with ⟨hmerge, rfl⟩ | ⟨hmerge, hcommitted, hlt⟩
  · rw [hmerge]
    exact (ensures_extend hsound.gapless h fresh _).mono (fun _ _ hj => hj)
      fun _ hj => ⟨Or.inl hj.1, hj.2⟩
  · rw [hmerge]
    have hle := hjoins.follows.boundary_le
    refine Ensures.andThen ((ensures_truncateFrom hsound.gapless h hle hlt).mono
      (fun _ _ hj => hj) fun _ hj => ⟨Or.inl hj.1, hj.2⟩) ?_
    rintro - j' ⟨hlog, hmirrored⟩
    have hfollows := Log.follows_nil hle hlt.le
    have hsound' : j'.log.Sound := hlog ▸ hsound.splice hfollows
    refine (ensures_extend hsound'.gapless hmirrored fresh _).mono ?_
      fun _ hj => ⟨Or.inr ⟨hcommitted, hj.1.trans hlog⟩, hj.2⟩
    rintro reached j'' ⟨hreach, hlog', hmirrored'⟩
    refine ⟨hreach, ?_, hmirrored'⟩
    rw [hlog', hsound'.gapless.splice_lastIndex, hlog, Log.splice, Log.splice,
      List.append_nil]

theorem ensures_compact_mirrored (hgapless : j.log.Gapless) (h : j.Mirrored)
    {index : ℕ} (hlt : j.log.snapshotIndex < index) (term : ℕ) :
    Ensures (compactTo index term) j
      (fun _ j' => j'.log = j.log.dropThrough index term ∧ j'.Mirrored)
      fun j' => j'.log = j.log ∧ j'.Mirrored := by
  refine (ensures_compactTo j hlt term).mono ?_
    fun _ hj => ⟨hj.1, h.same hj.1 hj.2⟩
  rintro - j' ⟨hlog, hdisk⟩
  refine ⟨hlog, ?_⟩
  unfold Mirrored at h ⊢
  rw [hlog, hdisk]
  change (stored j.disk).entries.filter _ = _
  rw [h, NumberedFrom.filter_lt_index hgapless]
  rfl

/-- A log that starts over is gone from the disk at once, or is still there as a
whole. -/
theorem ensures_resetTo (hgapless : j.log.Gapless) (h : j.Mirrored) (index term : ℕ) :
    Ensures (resetTo index term) j
      (fun _ j' => j'.log = ⟨[], index, term⟩ ∧ j'.Mirrored)
      fun j' => (stored j'.disk).entries = j.log.entries ∨
        (stored j'.disk).entries = [] := by
  have hcompact : ∀ j' : Journal σ, (stored j'.disk).entries = [] →
      Ensures (onDisk (Storage.compactTo index) >>= fun _ =>
          modifyLog fun _ => ⟨[], index, term⟩ : Act σ Unit) j'
        (fun _ j' => j'.log = ⟨[], index, term⟩ ∧ j'.Mirrored)
        fun j' => (stored j'.disk).entries = j.log.entries ∨
          (stored j'.disk).entries = [] := by
    intro j' hempty
    refine Ensures.bind (Ensures.onPart ((Faithful.compactTo index j'.disk).mono
      ?_ fun disk hdisk => Or.inr ?_))
    · intro _ disk hdisk
      refine ⟨rfl, ?_⟩
      change (stored disk).entries = []
      rw [hdisk]
      change (stored j'.disk).entries.filter _ = []
      rw [hempty, List.filter_nil]
    · change (stored disk).entries = []
      rw [hdisk, hempty]
  unfold resetTo
  rw [Ensures.get_bind_iff]
  refine Ensures.ite (fun _ => ?_) fun hempty => ?_
  · refine Ensures.bind (Ensures.onPart
      ((Faithful.truncateFrom _ j.disk).mono ?_ fun disk hdisk => Or.inl ?_))
    · intro _ disk hdisk
      refine hcompact _ ?_
      change (stored disk).entries = []
      rw [hdisk, h.entries_cut_first hgapless]
    · change (stored disk).entries = _
      rw [hdisk, h]
  · exact hcompact j (h.trans (not_not.mp hempty))

/-- A log that gets the base of a snapshot starts over if it disagrees with it. -/
theorem ensures_rebase (hsound : j.log.Sound) (h : j.Mirrored) {index : ℕ}
    (hlt : j.log.snapshotIndex < index) (term : ℕ) :
    Ensures (rebase index term) j
      (fun _ j' => j.log.Rebased index term j'.log ∧ j'.Mirrored)
      fun j' => (stored j'.disk).entries = j.log.entries ∨
        (stored j'.disk).entries = [] := by
  unfold rebase
  rw [Ensures.get_bind_iff]
  refine Ensures.ite (fun hterm => ?_) fun _ => ?_
  · refine (ensures_compact_mirrored hsound.gapless h hlt term).mono
      (fun _ j' hj => ⟨?_, hj.2⟩) fun j' hj => Or.inl ?_
    · rw [hj.1]
      exact hsound.rebased_dropThrough hlt.le hterm
    · rw [← hj.1]
      exact hj.2
  · refine (ensures_resetTo hsound.gapless h index term).mono
      (fun _ j' hj => ⟨?_, hj.2⟩) fun _ hj => hj
    rw [hj.1]
    exact Log.rebased_base j.log (Nat.zero_lt_of_lt hlt) term

end Journal

end Consensus
