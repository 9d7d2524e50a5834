import Consensus.Proofs.Gapless
import Consensus.Proofs.Disk
import Consensus.Proofs.Storage

/-!
# Disks that retain what is written

What a disk holds may be in another form than it was given, and numbers may be too
large for that form.  So it is said of a kind of disk which contents a disk of the
kind has, which numbers it can write, and that a write leaves it with the contents
changed as they should be.  Whether a write may fail is left open.

A journal keeps its log on such a disk if the entries there are those in memory.
Every change to the log in memory is one to the entries on the disk.
-/

namespace Consensus

/-! ## What can be written -/

/-- The numbers in an entry can all be written. -/
structure Entry.Fits (Writable : ℕ → Prop) (entry : Entry) : Prop where
  term : Writable entry.term
  index : Writable entry.index
  members : ∀ members, entry.payload = .config members →
    ∀ id ∈ members.toList, Writable id

/-- Term and vote can be written. -/
structure HardState.Fits (Writable : ℕ → Prop) (hard : HardState) : Prop where
  term : Writable hard.currentTerm
  vote : ∀ id, hard.votedFor = some id → Writable id

/-- The numbers in a snapshot can all be written. -/
structure Snapshot.Fits (Writable : ℕ → Prop) (snapshot : Snapshot) : Prop where
  index : Writable snapshot.index
  term : Writable snapshot.term
  members : ∀ id ∈ snapshot.members.toList, Writable id

theorem Entry.fits_of_all {Writable : ℕ → Prop} (hall : ∀ n, Writable n)
    (entry : Entry) : entry.Fits Writable :=
  ⟨hall _, hall _, fun _ _ id _ => hall id⟩

/-! ## Kinds of disks -/

namespace Storage

variable {σ : Type} [Storage σ] {Holds : σ → Stored → Prop}
  {Writable : ℕ → Prop} {fails : Prop}

/-- The write changes what a disk holds, or it fails, if that may be. -/
def Makes (Holds : σ → Stored → Prop) (fails : Prop) (act : EStateM Error σ Unit)
    (change : Stored → Stored) : Prop :=
  ∀ disk s, Holds disk s →
    Ensures act disk (fun _ disk' => Holds disk' (change s)) fun _ => fails

/-- A disk of the kind gives back what it holds, and holds what is written to it if
the numbers in it can be written. -/
structure Retains (Holds : σ → Stored → Prop) (Writable : ℕ → Prop)
    (fails : Prop) : Prop where
  loadHardState : ∀ disk s, Holds disk s →
    Storage.loadHardState disk = .ok s.hardState
  loadEntries : ∀ disk s, Holds disk s → Storage.loadEntries disk = .ok s.entries
  loadSnapshot : ∀ disk s, Holds disk s →
    Storage.loadSnapshot disk = .ok s.snapshot
  saveHardState : ∀ hard : HardState, hard.Fits Writable →
    Makes Holds fails (Storage.saveHardState hard)
      fun s => { s with hardState := hard }
  append : ∀ entries : List Entry, (∀ entry ∈ entries, entry.Fits Writable) →
    Makes Holds fails (Storage.append entries) (·.append entries)
  truncateFrom : ∀ index, Makes Holds fails (Storage.truncateFrom index) (·.cut index)
  compactTo : ∀ index, Makes Holds fails (Storage.compactTo index) (·.drop index)
  saveSnapshot : ∀ snapshot : Snapshot, snapshot.Fits Writable →
    Makes Holds fails (Storage.saveSnapshot snapshot)
      fun s => { s with snapshot := some snapshot }

/-- A disk that gives back what was written retains it, whichever writes fail. -/
theorem retains_stored [Faithful σ] :
    Retains (fun (disk : σ) s => Faithful.stored disk = s) (fun _ => True) True := by
  have hmakes : ∀ {act : EStateM Error σ Unit} {change : Stored → Stored},
      Writes Faithful.stored act change →
        Makes (fun (disk : σ) s => Faithful.stored disk = s) True act change := by
    rintro act change hwrites disk s rfl
    exact (hwrites disk).mono (fun _ _ hdisk => hdisk) fun _ _ => trivial
  constructor
  · rintro disk s rfl
    exact Faithful.loadHardState disk
  · rintro disk s rfl
    exact Faithful.loadEntries disk
  · rintro disk s rfl
    exact Faithful.loadSnapshot disk
  · intro hard _
    exact hmakes (Faithful.saveHardState hard)
  · intro entries _
    exact hmakes (Faithful.append entries)
  · intro index
    exact hmakes (Faithful.truncateFrom index)
  · intro index
    exact hmakes (Faithful.compactTo index)
  · intro snapshot _
    exact hmakes (Faithful.saveSnapshot snapshot)

end Storage

/-- What a disk in memory holds, if it takes every write. -/
def Memory.Retaining (disk : Memory) (s : Stored) : Prop :=
  disk.Clean ∧ disk.stored = s

/-- A disk in memory without faults never fails. -/
theorem retains_clean {Writable : ℕ → Prop} :
    Storage.Retains Memory.Retaining Writable False := by
  constructor
  · rintro disk s ⟨-, rfl⟩
    rfl
  · rintro disk s ⟨-, rfl⟩
    rfl
  · rintro disk s ⟨-, rfl⟩
    rfl
  · rintro hard - disk s ⟨hclean, rfl⟩
    exact .of_ok (hclean.saveHardState hard) ⟨⟨hclean.failing, hclean.readOnly⟩, rfl⟩
  · rintro entries - disk s ⟨hclean, rfl⟩
    exact .of_ok (hclean.append entries) ⟨hclean.withEntries _, rfl⟩
  · rintro index disk s ⟨hclean, rfl⟩
    exact .of_ok (hclean.truncateFrom index) ⟨hclean.withEntries _, rfl⟩
  · rintro index disk s ⟨hclean, rfl⟩
    exact .of_ok (hclean.compactTo index) ⟨hclean.withEntries _, rfl⟩
  · rintro snapshot - disk s ⟨hclean, rfl⟩
    exact .of_ok (hclean.saveSnapshot snapshot)
      ⟨⟨hclean.failing, hclean.readOnly⟩, rfl⟩

/-! ## A journal on such a disk -/

namespace Journal

variable {σ α : Type} [Storage σ] {Holds : σ → Stored → Prop}
  {Writable : ℕ → Prop} {fails : Prop} {j : Journal σ} {s : Stored}

/-- The disk holds the entries of the log, and besides them what `s` says. -/
def Keeps (Holds : σ → Stored → Prop) (s : Stored) (j : Journal σ) : Prop :=
  Holds j.disk { s with entries := j.log.entries }

omit [Storage σ] in
/-- What comes after a write to the disk of a journal. -/
theorem Keeps.write (h : j.Keeps Holds s) {act : EStateM Error σ Unit}
    {change : Stored → Stored} (hmakes : Storage.Makes Holds fails act change)
    {f : Unit → Act σ α} {Q : α → Journal σ → Prop}
    (hrest : ∀ disk, Holds disk (change { s with entries := j.log.entries }) →
      Ensures (f ()) ⟨j.log, disk⟩ Q fun _ => fails) :
    Ensures (onDisk act >>= f) j Q fun _ => fails := by
  apply Ensures.bind
  apply Ensures.onPart
  refine (hmakes j.disk _ h).imp (fun _ disk hdisk => ?_)
  exact hrest disk hdisk

variable (hretains : Storage.Retains Holds Writable fails)
include hretains

/-- A new entry comes after the last one. -/
theorem Keeps.append (h : j.Keeps Holds s) {term : ℕ} {payload : Payload}
    (hfits : Entry.Fits Writable ⟨term, j.log.lastIndex + 1, payload⟩) :
    Ensures (append term payload) j
      (fun index j' => index = j.log.lastIndex + 1 ∧
        j'.log = j.log.push ⟨term, index, payload⟩ ∧ j'.Keeps Holds s)
      fun _ => fails := by
  unfold Journal.append
  rw [Ensures.get_bind_iff]
  refine h.write (hretains.append _ ?_) fun disk hdisk => ⟨rfl, rfl, hdisk⟩
  intro entry hentry
  rw [List.mem_singleton.mp hentry]
  exact hfits

/-- The log is cut after an index that it keeps. -/
theorem Keeps.truncateFrom (h : j.Keeps Holds s) (hgapless : j.log.Gapless)
    {kept : ℕ} (hle : j.log.snapshotIndex ≤ kept) (hlt : kept < j.log.lastIndex) :
    Ensures (truncateFrom (kept + 1)) j
      (fun _ j' => j'.log = j.log.splice kept [] ∧ j'.Keeps Holds s)
      fun _ => fails := by
  unfold Journal.truncateFrom
  rw [Ensures.get_bind_iff]
  apply Ensures.ite
  · intro hout
    omega
  · intro _
    refine h.write (hretains.truncateFrom _) fun disk hdisk => ?_
    refine ⟨Log.takeBefore_succ j.log kept, ?_⟩
    have hcut : (j.log.entries.filter fun e => decide (e.index < kept + 1)) =
        (j.log.takeBefore (kept + 1)).entries :=
      hgapless.filter_index_lt (kept + 1)
    change Holds disk { s with entries := (j.log.takeBefore (kept + 1)).entries }
    rw [← hcut]
    exact hdisk

/-- The fresh entries that a leader sent come at the end. -/
theorem Keeps.extend (h : j.Keeps Holds s) (hgapless : j.log.Gapless)
    {fresh : List Entry} (hfits : ∀ entry ∈ fresh, entry.Fits Writable)
    (reach : ℕ) :
    Ensures (do
        if fresh ≠ [] then
          onDisk (Storage.append fresh)
          modifyLog fun log => { log with entries := log.entries ++ fresh }
        return reach : Act σ ℕ) j
      (fun reached j' => reached = reach ∧
        j'.log = j.log.splice j.log.lastIndex fresh ∧ j'.Keeps Holds s)
      fun _ => fails := by
  rw [hgapless.splice_lastIndex]
  apply Ensures.ite
  · intro _
    exact h.write (hretains.append fresh hfits) fun disk hdisk => ⟨rfl, rfl, hdisk⟩
  · intro hnone
    rw [not_not.mp hnone, List.append_nil]
    exact ⟨rfl, rfl, h⟩

/-- What a leader sends replaces what comes after the index that is kept. -/
theorem Keeps.appendFromLeader (h : j.Keeps Holds s) (hgapless : j.log.Gapless)
    {kept prev : ℕ} {sent fresh : List Entry} (hadjoins : j.log.Adjoins kept fresh)
    (hmerge : j.log.merge sent = ⟨none, fresh⟩ ∧ kept = j.log.lastIndex ∨
      j.log.merge sent = ⟨some (kept + 1), fresh⟩ ∧ kept < j.log.lastIndex)
    (hfits : ∀ entry ∈ fresh, entry.Fits Writable) :
    Ensures (appendFromLeader prev sent) j
      (fun reach j' => reach = prev + sent.length ∧
        j'.log = j.log.splice kept fresh ∧ j'.Keeps Holds s)
      fun _ => fails := by
  unfold Journal.appendFromLeader
  rw [Ensures.get_bind_iff]
  dsimp only
  rcases hmerge with ⟨hmerge, rfl⟩ | ⟨hmerge, hlt⟩
  · rw [hmerge]
    exact h.extend hretains hgapless hfits _
  · rw [hmerge]
    have hle := hadjoins.boundary_le
    refine (h.truncateFrom hretains hgapless hle hlt).andThen ?_
    rintro - j' ⟨hlog, hkeeps⟩
    have hgapless' : j'.log.Gapless := hlog ▸ hgapless.splice ⟨hle, hlt.le, .nil kept⟩
    refine (hkeeps.extend hretains hgapless' hfits _).imp ?_
    rintro reached j'' ⟨hreach, hlog', hkeeps'⟩
    refine ⟨hreach, ?_, hkeeps'⟩
    rw [hlog', hgapless'.splice_lastIndex, hlog, Log.splice, Log.splice,
      List.append_nil]

/-- The boundary moves up, and the entries up to there are gone. -/
theorem Keeps.compactTo (h : j.Keeps Holds s) (hgapless : j.log.Gapless)
    {index : ℕ} (hlt : j.log.snapshotIndex < index) (term : ℕ) :
    Ensures (compactTo index term) j
      (fun _ j' => j'.log = j.log.dropThrough index term ∧ j'.Keeps Holds s)
      fun _ => fails := by
  unfold Journal.compactTo
  rw [Ensures.get_bind_iff]
  apply Ensures.ite
  · intro hle
    exact absurd hle hlt.not_ge
  · intro _
    refine h.write (hretains.compactTo _) fun disk hdisk => ⟨rfl, ?_⟩
    have hdrop : (j.log.entries.filter fun e => decide (index < e.index)) =
        (j.log.dropThrough index term).entries :=
      hgapless.filter_lt_index index
    change Holds disk { s with entries := (j.log.dropThrough index term).entries }
    rw [← hdrop]
    exact hdisk

/-- The log starts over at a boundary. -/
theorem Keeps.resetTo (h : j.Keeps Holds s) (hgapless : j.log.Gapless)
    (index term : ℕ) :
    Ensures (resetTo index term) j
      (fun _ j' => j'.log = ⟨[], index, term⟩ ∧ j'.Keeps Holds s)
      fun _ => fails := by
  have hcompact : ∀ log disk, Holds disk { s with entries := [] } →
      Ensures (onDisk (Storage.compactTo index) >>= fun _ =>
          modifyLog fun _ => ⟨[], index, term⟩ : Act σ Unit) ⟨log, disk⟩
        (fun _ j' => j'.log = ⟨[], index, term⟩ ∧ j'.Keeps Holds s)
        fun _ => fails := by
    intro log disk hempty
    apply Ensures.bind
    apply Ensures.onPart
    refine (hretains.compactTo index disk _ hempty).imp (fun _ disk' hdisk => ?_)
    exact ⟨rfl, hdisk⟩
  unfold Journal.resetTo
  rw [Ensures.get_bind_iff]
  apply Ensures.ite
  · intro _
    refine h.write (hretains.truncateFrom _) fun disk hdisk => hcompact _ disk ?_
    have hcut : (j.log.entries.filter fun e => decide (e.index < j.log.firstIndex)) =
        [] := by
      rw [hgapless.filter_index_lt, Log.firstIndex_eq, Nat.add_sub_cancel_left,
        Nat.sub_self, List.take_zero]
    rw [← hcut]
    exact hdisk
  · intro hempty
    apply hcompact
    rw [← not_not.mp hempty]
    exact h

end Journal

end Consensus
