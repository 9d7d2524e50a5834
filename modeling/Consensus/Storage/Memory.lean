import Consensus.Storage

/-!
# A disk in memory

It holds what it is given. Writes of chosen kinds can be set to fail, and so can every write
to the log; a write that fails changes nothing.
-/

namespace Consensus

/-- A disk in memory. -/
structure Memory where
  hardState : HardState := {}
  entries : List Entry := []
  snapshot : Option Snapshot := none
  /-- The kinds of write that fail. -/
  failing : List WriteKind := []
  /-- Every write but that of a snapshot fails. -/
  readOnly : Bool := false
deriving DecidableEq

namespace Memory

/-- Why a write of the given kind fails, if it does. -/
def fault? (disk : Memory) (kind : WriteKind) : Option StorageFault :=
  if kind ∈ disk.failing then some (.injected kind)
  else if disk.readOnly ∧ kind ≠ .snapshot then some .readOnly
  else none

/-- Change the disk by a write of the given kind. -/
def write (kind : WriteKind) (change : Memory → Memory) : EStateM Error Memory Unit :=
  fun disk =>
    match disk.fault? kind with
    | some fault => .error (.storage fault) disk
    | none => .ok () (change disk)

instance : Storage Memory where
  loadHardState disk := .ok disk.hardState
  loadEntries disk := .ok disk.entries
  loadSnapshot disk := .ok disk.snapshot
  saveHardState state := write .hardState fun disk => { disk with hardState := state }
  append entries := write .append fun disk => { disk with entries := disk.entries ++ entries }
  truncateFrom index := write .truncate fun disk =>
    { disk with entries := disk.entries.filter fun e => decide (e.index < index) }
  compactTo index := write .compact fun disk =>
    { disk with entries := disk.entries.filter fun e => decide (index < e.index) }
  saveSnapshot snapshot := write .snapshot fun disk => { disk with snapshot := some snapshot }

end Memory

end Consensus
