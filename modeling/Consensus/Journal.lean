import Consensus.Log
import Consensus.Storage

/-!
# The log on its disk

A journal is the log in memory together with the disk that holds it. Every change goes to the
disk first and is made in memory only once the disk has taken it, so a failing write leaves
the log in memory as it was. Opening a journal drops what the snapshot covers from the disk
and refuses entries with gaps or falling terms.
-/

namespace Consensus

/-- The log in memory and the disk behind it. -/
structure Journal (σ : Type) where
  log : Log
  disk : σ

/-- Read the log off a disk whose snapshot ends at the given index and term. The prefix that
the snapshot covers is dropped from the disk before the rest is checked. -/
def Log.load {σ : Type} [Counting] [Storage σ] (snapshotIndex snapshotTerm : Nat) :
    EStateM Error σ Log := do
  let stored ← Storage.inspect Storage.loadEntries
  let covered := stored.takeWhile fun e => decide (e.index ≤ snapshotIndex)
  if covered ≠ [] then
    Storage.compactTo snapshotIndex
  let entries := stored.drop covered.length
  match Log.firstFlaw? (Counting.plus snapshotIndex 1) snapshotTerm entries with
  | some flaw => throw (.corrupted flaw)
  | none => return ⟨entries, snapshotIndex, snapshotTerm⟩

namespace Journal

variable {σ : Type} [Storage σ]

/-- A computation on a journal. -/
abbrev Act (σ : Type) := EStateM Error (Journal σ)

/-- Do something to the disk only. -/
def onDisk {α : Type} (act : EStateM Error σ α) : Act σ α :=
  onPart Journal.disk (fun disk j => { j with disk := disk }) act

/-- Change the log in memory. -/
def modifyLog (change : Log → Log) : Act σ Unit :=
  modify fun j => { j with log := change j.log }

/-- Append a new entry of the given term, and give its index. -/
def append [Counting] (term : Nat) (payload : Payload) : Act σ Nat := do
  let log := (← get).log
  let entry : Entry := ⟨term, Counting.plus log.lastIndex 1, payload⟩
  onDisk (Storage.append [entry])
  modifyLog (·.push entry)
  return entry.index

/-- Drop every entry from `index` on; nothing happens outside the entries held. -/
def truncateFrom (index : Nat) : Act σ Unit := do
  let log := (← get).log
  if index ≤ log.snapshotIndex ∨ log.lastIndex < index then
    return
  onDisk (Storage.truncateFrom index)
  modifyLog (·.takeBefore index)

/-- Take over the entries that a leader sends after `prevIndex`. Entries already held with the
same term stay; the first conflict cuts the log before the rest is added. The answer is the
index of the last entry sent. -/
def appendFromLeader [Counting] (prevIndex : Nat) (sent : List Entry) : Act σ Nat := do
  let merge := (← get).log.merge sent
  match merge.cut with
  | some index => truncateFrom index
  | none => pure ()
  if merge.fresh ≠ [] then
    onDisk (Storage.append merge.fresh)
    modifyLog fun log => { log with entries := log.entries ++ merge.fresh }
  return Counting.plus prevIndex sent.length

/-- Drop the entries up to `index`, which a snapshot ending there with `term` now covers. -/
def compactTo (index term : Nat) : Act σ Unit := do
  let log := (← get).log
  if index ≤ log.snapshotIndex then
    return
  onDisk (Storage.compactTo index)
  modifyLog (·.dropThrough index term)

/-- Replace the whole log by the boundary of a snapshot. -/
def resetTo [Counting] (index term : Nat) : Act σ Unit := do
  let log := (← get).log
  if log.entries ≠ [] then
    onDisk (Storage.truncateFrom log.firstIndex)
  onDisk (Storage.compactTo index)
  modifyLog fun _ => ⟨[], index, term⟩

end Journal

end Consensus
