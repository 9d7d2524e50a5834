import Consensus.Entry
import Consensus.Error

/-!
# The log in memory

Every entry after the latest snapshot, and the boundary that the snapshot covers: the index
and term of the last entry in it. Entries are found by position, the first one standing right
after the boundary.
-/

namespace Consensus

/-- The entries after the snapshot boundary. -/
structure Log where
  entries : List Entry
  snapshotIndex : Nat
  snapshotTerm : Nat
deriving DecidableEq

namespace Log

/-- The index where the entries start. -/
def firstIndex [Counting] (log : Log) : Nat := Counting.plus log.snapshotIndex 1

/-- The index of the last entry, or of the boundary if there are no entries. -/
def lastIndex (log : Log) : Nat :=
  match log.entries.getLast? with
  | some e => e.index
  | none => log.snapshotIndex

/-- The term of the last entry, or of the boundary if there are no entries. -/
def lastTerm (log : Log) : Nat :=
  match log.entries.getLast? with
  | some e => e.term
  | none => log.snapshotTerm

/-- The number of entries that are not compacted. -/
def size (log : Log) : Nat := log.entries.length

/-- The entry at `index`; a compacted one is gone. -/
def get? (log : Log) (index : Nat) : Option Entry :=
  if index ≤ log.snapshotIndex then none
  else log.entries[index - log.snapshotIndex - 1]?

/-- The term at `index`, which at the boundary is the boundary's. Before the first entry of
all, at index 0, the term is 0. -/
def termAt? (log : Log) (index : Nat) : Option Nat :=
  if index = 0 then some 0
  else if index = log.snapshotIndex then some log.snapshotTerm
  else (log.get? index).map (·.term)

/-- At most `count` entries from `start` on. -/
def entriesFrom [Counting] (log : Log) (start count : Nat) : List Entry :=
  let skipped := Counting.minus (Counting.minus (max start log.firstIndex) log.snapshotIndex) 1
  (log.entries.drop skipped).take count

/-- The entries whose index is above `after`. -/
def entriesAfter (log : Log) (after : Nat) : List Entry :=
  log.entries.filter fun e => decide (after < e.index)

/-- Whether the log agrees with another one up to `index`, where that one has `term`. What lies
below the boundary is committed and agrees with every leader. -/
def matchesAt (log : Log) (index term : Nat) : Bool :=
  decide (index < log.snapshotIndex) || decide (log.termAt? index = some term)

/-- Go down from `index` past entries of the given term, not below the boundary. -/
def skipTermDown (log : Log) (term : Nat) : Nat → Nat
  | 0 => 0
  | index + 1 =>
    if log.snapshotIndex < index + 1 ∧ log.termAt? (index + 1) = some term then
      log.skipTermDown term index
    else index + 1

/-- Where a leader whose entry at `index` does not fit should try next: the last index if the
log ends before it, else the index just before the run of entries that share its term. Nothing
comes before index 0 but, in words, the last word. -/
def conflictHint [Counting] (log : Log) (index : Nat) : Nat :=
  if log.lastIndex < index then log.lastIndex
  else
    match log.termAt? index with
    | none => log.snapshotIndex
    | some term => log.skipTermDown term (Counting.minus index 1)

/-- Whether a log with the given last index and term is at least as complete as this one. -/
def isUpToDate (log : Log) (lastIndex lastTerm : Nat) : Bool :=
  decide (log.lastTerm < lastTerm) ||
    (decide (lastTerm = log.lastTerm) && decide (log.lastIndex ≤ lastIndex))

/-- The entries with `entry` at the end. -/
def push (log : Log) (entry : Entry) : Log := { log with entries := log.entries ++ [entry] }

/-- The entries before `index`, by position. -/
def takeBefore (log : Log) (index : Nat) : Log :=
  { log with entries := log.entries.take (index - log.snapshotIndex - 1) }

/-- The log with its boundary moved up to `index`, and the entries up to there dropped. -/
def dropThrough (log : Log) (index term : Nat) : Log :=
  { entries := log.entries.drop (index - log.snapshotIndex)
    snapshotIndex := index
    snapshotTerm := term }

/-- How entries sent by a leader join the log. -/
structure Merge where
  /-- Where the log has to be cut first, because it holds something else there. -/
  cut : Option Nat
  /-- The entries to add then. -/
  fresh : List Entry
deriving DecidableEq

/-- Compare the sent entries with the log. Compacted ones and those held with the same term are
passed over; at the first that is not there the rest is fresh, and if its place is taken by
another term the log is cut there. -/
def merge (log : Log) : List Entry → Merge
  | [] => ⟨none, []⟩
  | e :: rest =>
    if e.index ≤ log.snapshotIndex then log.merge rest
    else
      match log.termAt? e.index with
      | none => ⟨none, e :: rest⟩
      | some term => if term = e.term then log.merge rest else ⟨some e.index, e :: rest⟩

/-- The first flaw in entries that should be numbered from `expected` on, with terms that never
fall and start at `least` or above. -/
def firstFlaw? [Counting] (expected least : Nat) : List Entry → Option Corruption
  | [] => none
  | e :: rest =>
    if e.index ≠ expected then some (.logGap expected e.index)
    else if e.term < least then some (.termRegression e.index e.term least)
    else firstFlaw? (Counting.plus expected 1) e.term rest

/-- The log in a line. -/
def describe (log : Log) : String :=
  describeFields "RaftLog" [("snapshot_index", toString log.snapshotIndex),
    ("snapshot_term", toString log.snapshotTerm), ("last_index", toString log.lastIndex),
    ("len", toString log.size)]

end Log

end Consensus
