import Consensus.Entry
import Consensus.Error

/-!
# Durable state

What survives a stop: term and vote, the log entries after the latest snapshot, and that
snapshot. A disk may fail any write; the class says what can be asked of it, and a failing
operation leaves in the state whatever it left on the disk.
-/

namespace Consensus

/-- Term and vote, stored before any answer that depends on them. -/
structure HardState where
  currentTerm : Nat := 0
  votedFor : Option Nat := none
deriving DecidableEq, Inhabited

/-- The consumer's state up to `index`, and the membership committed there. -/
structure Snapshot where
  index : Nat
  term : Nat
  members : NodeSet
  data : Bytes
deriving DecidableEq

/-- A disk of type `σ`. -/
class Storage (σ : Type) where
  /-- Term and vote; zero and none on a fresh disk. -/
  loadHardState : σ → Except Error HardState
  /-- The stored entries in the order stored. -/
  loadEntries : σ → Except Error (List Entry)
  /-- The latest snapshot. -/
  loadSnapshot : σ → Except Error (Option Snapshot)
  /-- Replace term and vote. -/
  saveHardState : HardState → EStateM Error σ Unit
  /-- Add entries at the end. -/
  append : List Entry → EStateM Error σ Unit
  /-- Remove every entry with this index or a higher one. -/
  truncateFrom : Nat → EStateM Error σ Unit
  /-- Remove every entry with this index or a lower one. -/
  compactTo : Nat → EStateM Error σ Unit
  /-- Replace the snapshot. -/
  saveSnapshot : Snapshot → EStateM Error σ Unit

namespace Storage

/-- Look at the disk without changing it. -/
def inspect {σ α : Type} (look : σ → Except Error α) : EStateM Error σ α := fun disk =>
  match look disk with
  | .ok a => .ok a disk
  | .error e => .error e disk

end Storage

end Consensus
