import Consensus.Node.Basic

/-!
# Committing and applying

A leader commits the highest index that a majority holds, provided the entry there is of its
own term. Committed entries are applied one at a time in index order: a command goes to the
consumer, a membership takes over, and a caller waiting at the index is answered. A leader that
is no longer a member steps down. Once the log is longer than the threshold, the consumer's
state is stored as a snapshot and the covered entries are dropped.
-/

namespace Consensus.Node

variable {σ : Type}

/-- Give the consumer a command. -/
def consume (n : Node σ) (index : Nat) (command : Bytes) : Node σ :=
  { n.emit (.consume index command) with recorder := n.recorder.apply index command }

/-- Let the membership committed at `index` take over; a leader replicates accordingly. -/
def adoptMembers [Counting] (n : Node σ) (index : Nat) (members : NodeSet) : Node σ :=
  let n := { n with membership := n.membership.onCommit index members }
  if n.standing.role = .leader then n.syncPeers n.targets (Counting.plus n.log.lastIndex 1) else n

/-- Do what an applied entry says. -/
def enact [Counting] (n : Node σ) (entry : Entry) (index : Nat) : Node σ :=
  match entry.payload with
  | .noop => n
  | .command command => n.consume index command
  | .config members => n.adoptMembers index members

/-- Answer the callers that wait at `index`, where the entry applied is of the given term. A
caller whose entry was of another term has lost it. -/
def answerWaiters (n : Node σ) (index term : Nat) : Node σ :=
  let n := match n.commandWaiters.get? index with
    | none => n
    | some w =>
      let answer : Answer := if w.term = term then .applied index else .refused .leadershipLost
      { n.emit (.answer w.ticket answer) with commandWaiters := n.commandWaiters.erase index }
  match n.changeWaiters.get? index with
  | none => n
  | some w =>
    let reply : ChangeReply := if w.term = term then .done n.self else .refused n.standing.leader
    { n.emit (.answer w.ticket (.change reply)) with
      changeWaiters := n.changeWaiters.erase index }

/-- Apply an entry at its index and answer those who wait for it. -/
def applyEntry [Counting] (n : Node σ) (entry : Entry) (index : Nat) : Node σ :=
  ((n.enact entry index).mapStanding fun s => { s with lastApplied := index }).answerWaiters
    index entry.term

/-- What is known to be on a peer; the node itself holds its whole log. -/
def matchIndex (n : Node σ) (id : Nat) : Nat :=
  if id = n.self then n.log.lastIndex
  else ((n.peers.get? id).map (·.matchIndex)).getD 0

/-- The highest index that a majority of the committed members holds. -/
def majorityIndex (n : Node σ) : Nat := n.membership.committed.quorumMatch n.matchIndex

variable [Storage σ]

/-- Apply the entry after the last applied one. -/
def applyNext [Counting] : Act σ Unit := do
  let n ← get
  let index := n.standing.lastApplied + 1
  match n.log.get? index with
  | none => throw (.corrupted (.missingEntry index))
  | some entry =>
    set (n.applyEntry entry index)
    let n ← get
    if n.standing.role = .leader ∧ n.self ∉ n.membership.committed then
      set (n.mapStanding fun s => { s with leader := none })
      stepDown n.standing.currentTerm

/-- Apply the given number of entries. -/
def applyMany [Counting] : Nat → Act σ Unit
  | 0 => pure ()
  | count + 1 => do
    applyNext
    applyMany count

/-- Once the log is longer than the threshold, store a snapshot of what is applied and drop the
entries that it covers. -/
def compactIfLong : Act σ Unit := do
  let n ← get
  let index := n.standing.lastApplied
  if n.log.size ≤ n.settings.compactionThreshold ∨ index ≤ n.log.snapshotIndex then
    return
  match n.log.termAt? index with
  | none => throw (.corrupted (.missingAppliedTerm index))
  | some term =>
    onDisk (Storage.saveSnapshot
      ⟨index, term, n.membership.committed, n.recorder.snapshot⟩)
    onJournal (Journal.compactTo index term)

/-- Apply every committed entry, tell how far that went, and compact a long log. -/
def applyCommitted [Counting] : Act σ Unit := do
  let n ← get
  applyMany (n.standing.commitIndex - n.standing.lastApplied)
  modify fun n => n.emit (.announce n.standing.lastApplied)
  compactIfLong

/-- Commit what a majority holds, if the last of it is of the leader's own term. -/
def advanceCommit [Counting] : Act σ Unit := do
  let n ← get
  if n.standing.role ≠ .leader then
    return
  let index := n.majorityIndex
  if index ≤ n.standing.commitIndex ∨ n.log.termAt? index ≠ some n.standing.currentTerm then
    return
  set (n.mapStanding fun s => { s with commitIndex := index })
  applyCommitted

end Consensus.Node
