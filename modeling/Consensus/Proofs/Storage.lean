import Consensus.Journal
import Consensus.Storage.Memory
import Consensus.Proofs.Ensures
import Mathlib.Data.Nat.Notation

/-!
# Disks that keep what they are given

Of a disk no more is asked than that it gives back what was written, and that a
write that fails changes nothing.  Which writes fail is the disk's own affair, so
what is shown of every such disk holds wherever a write fails.
-/

namespace Consensus

/-- What a disk holds. -/
structure Stored where
  hardState : HardState := {}
  entries : List Entry := []
  snapshot : Option Snapshot := none
deriving DecidableEq

namespace Stored

/-- With entries added at the end. -/
def append (s : Stored) (entries : List Entry) : Stored :=
  { s with entries := s.entries ++ entries }

/-- Without the entries from the index on. -/
def cut (s : Stored) (index : ℕ) : Stored :=
  { s with entries := s.entries.filter fun e => decide (e.index < index) }

/-- Without the entries up to the index. -/
def drop (s : Stored) (index : ℕ) : Stored :=
  { s with entries := s.entries.filter fun e => decide (index < e.index) }

end Stored

namespace Storage

/-- The write changes what is stored, or it fails and changes nothing. -/
def Writes {σ : Type} (stored : σ → Stored) (act : EStateM Error σ Unit)
    (change : Stored → Stored) : Prop :=
  ∀ disk, Ensures act disk (fun _ disk' => stored disk' = change (stored disk))
    fun disk' => stored disk' = stored disk

/-- A disk that gives back what was written to it. -/
class Faithful (σ : Type) [Storage σ] where
  stored : σ → Stored
  loadHardState (disk : σ) :
    Storage.loadHardState disk = .ok (stored disk).hardState
  loadEntries (disk : σ) : Storage.loadEntries disk = .ok (stored disk).entries
  loadSnapshot (disk : σ) :
    Storage.loadSnapshot disk = .ok (stored disk).snapshot
  saveHardState (hard : HardState) : Writes stored (Storage.saveHardState hard)
    fun s => { s with hardState := hard }
  append (entries : List Entry) :
    Writes stored (Storage.append entries) (·.append entries)
  truncateFrom (index : ℕ) :
    Writes stored (Storage.truncateFrom index) (·.cut index)
  compactTo (index : ℕ) :
    Writes stored (Storage.compactTo index) (·.drop index)
  saveSnapshot (snapshot : Snapshot) :
    Writes stored (Storage.saveSnapshot snapshot)
      fun s => { s with snapshot := some snapshot }

end Storage

/-! ## Disks in memory -/

/-- What a disk in memory holds. -/
def Memory.stored (disk : Memory) : Stored :=
  ⟨disk.hardState, disk.entries, disk.snapshot⟩

theorem Memory.writes_write (kind : WriteKind) {change : Memory → Memory}
    {change' : Stored → Stored}
    (h : ∀ disk, (change disk).stored = change' disk.stored) :
    Storage.Writes Memory.stored (Memory.write kind change) change' := by
  intro disk
  unfold Memory.write
  cases hfault : disk.fault? kind with
  | some fault => exact Ensures.of_error (by rw [hfault]) rfl
  | none => exact Ensures.of_ok (by rw [hfault]) (h disk)

instance : Storage.Faithful Memory where
  stored := Memory.stored
  loadHardState _ := rfl
  loadEntries _ := rfl
  loadSnapshot _ := rfl
  saveHardState _ := Memory.writes_write _ fun _ => rfl
  append _ := Memory.writes_write _ fun _ => rfl
  truncateFrom _ := Memory.writes_write _ fun _ => rfl
  compactTo _ := Memory.writes_write _ fun _ => rfl
  saveSnapshot _ := Memory.writes_write _ fun _ => rfl

/-- A disk on which any write may fail: each write is judged in turn, and works
once there are no verdicts left. -/
structure Fallible where
  stored : Stored := {}
  verdicts : List Bool := []
deriving DecidableEq

namespace Fallible

/-- Change what is stored if the next verdict allows it. -/
def write (change : Stored → Stored) : EStateM Error Fallible Unit := fun disk =>
  match disk.verdicts with
  | [] => .ok () { disk with stored := change disk.stored }
  | true :: verdicts => .ok () ⟨change disk.stored, verdicts⟩
  | false :: verdicts => .error (.storage .unavailable) ⟨disk.stored, verdicts⟩

instance : Storage Fallible where
  loadHardState disk := .ok disk.stored.hardState
  loadEntries disk := .ok disk.stored.entries
  loadSnapshot disk := .ok disk.stored.snapshot
  saveHardState hard := write fun s => { s with hardState := hard }
  append entries := write (·.append entries)
  truncateFrom index := write (·.cut index)
  compactTo index := write (·.drop index)
  saveSnapshot snapshot := write fun s => { s with snapshot := some snapshot }

theorem writes_write (change : Stored → Stored) :
    Storage.Writes Fallible.stored (write change) change := by
  rintro ⟨stored, verdicts⟩
  rcases verdicts with - | ⟨verdict, verdicts⟩
  · rfl
  · cases verdict <;> rfl

instance : Storage.Faithful Fallible where
  stored := Fallible.stored
  loadHardState _ := rfl
  loadEntries _ := rfl
  loadSnapshot _ := rfl
  saveHardState _ := writes_write _
  append _ := writes_write _
  truncateFrom _ := writes_write _
  compactTo _ := writes_write _
  saveSnapshot _ := writes_write _

end Fallible

end Consensus
