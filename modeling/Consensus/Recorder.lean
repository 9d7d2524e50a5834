import Consensus.Json.Record
import Consensus.Error

/-!
# The consumer of committed commands

A recorder keeps every command it is given, with its index. A command at or below the last
recorded index is counted but not recorded again. Its snapshot is the record itself; restoring
one replaces the record whatever it held. A durable recorder outlives a stop of its node and
says how far it got; any other starts over and is rebuilt from snapshot and log.
-/

namespace Consensus

/-- The commands recorded so far, and the index of the last one. -/
structure Record where
  entries : List (Nat × Bytes) := []
  lastApplied : Nat := 0
deriving DecidableEq

namespace Record

/-- A recorded command: its index and its bytes. -/
def itemToJson (item : Nat × Bytes) : Json := .array [.ofNat item.1, .ofBytes item.2]

/-- Read a recorded command. -/
def itemOfJson? : Json → Option (Nat × Bytes)
  | .array [index, command] => do return (← index.word?, ← command.bytes?)
  | _ => none

/-- The record in JSON. -/
def toJson (r : Record) : Json :=
  .ofRecord [("entries", .ofList itemToJson r.entries), ("last_applied", .ofNat r.lastApplied)]

/-- Read a record. -/
def ofJson? (j : Json) : Option Record :=
  match j.fields? ["entries", "last_applied"] with
  | some [entries, lastApplied] => do
    return ⟨← Json.required (Json.list? itemOfJson?) entries,
      ← Json.required Json.word? lastApplied⟩
  | _ => none

/-- The bytes of a record. -/
def encode (r : Record) : Bytes := r.toJson.print

/-- The record that the bytes spell. -/
def decode? (bytes : Bytes) : Option Record := Json.read? bytes >>= ofJson?

end Record

/-- A consumer that records commands. -/
structure Recorder where
  record : Record := {}
  /-- How often a command was given, repeated ones included. -/
  applyCalls : Nat := 0
  /-- How often a snapshot was restored. -/
  restores : Nat := 0
  /-- Whether the record outlives a stop. -/
  durable : Bool := false
deriving DecidableEq

namespace Recorder

/-- Give the recorder the command committed at `index`. -/
def apply (m : Recorder) (index : Nat) (command : Bytes) : Recorder :=
  let m := { m with applyCalls := m.applyCalls + 1 }
  if index ≤ m.record.lastApplied then m
  else { m with record := ⟨m.record.entries ++ [(index, command)], index⟩ }

/-- Everything recorded, as bytes. -/
def snapshot (m : Recorder) : Bytes := m.record.encode

/-- Replace the record by a snapshot's. -/
def restore (m : Recorder) (data : Bytes) : Except Error Recorder :=
  match Record.decode? data with
  | some record => .ok { m with record := record, restores := m.restores + 1 }
  | none => .error .serialization

/-- The highest index that outlives a stop. -/
def lastApplied (m : Recorder) : Nat := if m.durable then m.record.lastApplied else 0

/-- The commands without their indices. -/
def commands (m : Recorder) : List Bytes := m.record.entries.map Prod.snd

end Recorder

end Consensus
