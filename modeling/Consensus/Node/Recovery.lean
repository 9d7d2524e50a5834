import Consensus.Node.Basic

/-!
# Starting from what is durable

A node is built from its settings, its disk and its consumer. The start is refused when they
contradict each other: a log with gaps or falling terms, a stored term behind the log's, a
consumer ahead of the log.
-/

namespace Consensus

/-- What outlives a node: the disk, and the consumer as far as it is durable. -/
structure Durable (σ : Type) where
  disk : σ
  recorder : Recorder

namespace Durable

variable {σ : Type}

/-- Do something to the disk only. -/
def onDisk {α : Type} (act : EStateM Error σ α) : EStateM Error (Durable σ) α :=
  onPart Durable.disk (fun disk d => { d with disk := disk }) act

/-- Bring a consumer that is behind the snapshot up to it, and give the index it has applied. -/
def catchUp (snapshot : Option Snapshot) : EStateM Error (Durable σ) Nat := do
  let d ← get
  match snapshot with
  | none => return d.recorder.lastApplied
  | some snapshot =>
    if d.recorder.lastApplied < snapshot.index then
      match d.recorder.restore snapshot.data with
      | .error e => throw e
      | .ok recorder =>
        set { d with recorder := recorder }
        return snapshot.index
    else return d.recorder.lastApplied

end Durable

/-- The membership in force after `applied`: the base, then every membership entry that is
already applied, and the last later one as pending. -/
def Membership.recover (base : NodeSet) (log : Log) (applied : Nat) : Membership :=
  let replayed := (log.entriesAfter log.snapshotIndex).takeWhile fun e =>
    decide (e.index ≤ applied)
  let committed := replayed.foldl
    (fun m e => match e.config? with
      | some members => m.onCommit e.index members
      | none => m)
    (Membership.settled base)
  committed.refreshPending (log.entriesAfter applied)

namespace Node

variable {σ : Type} [Storage σ]

/-- Build a node over a disk and a consumer. -/
def recover [Counting] (settings : Settings) : EStateM Error (Durable σ) (Node σ) := do
  match settings.validate with
  | .error e => throw e
  | .ok () => pure ()
  let hard ← Durable.onDisk (Storage.inspect Storage.loadHardState)
  let snapshot ← Durable.onDisk (Storage.inspect Storage.loadSnapshot)
  let log ← Durable.onDisk
    (Log.load ((snapshot.map (·.index)).getD 0) ((snapshot.map (·.term)).getD 0))
  if hard.currentTerm < log.lastTerm then
    throw (.corrupted (.termBehindLog hard.currentTerm log.lastTerm))
  let applied ← Durable.catchUp snapshot
  if log.lastIndex < applied then
    throw (.corrupted (.appliedBeyondLog applied log.lastIndex))
  let base := (snapshot.map (·.members)).getD (.ofList settings.members)
  let durable ← get
  return {
    log := log
    disk := durable.disk
    standing := .restore hard applied
    settings := settings
    membership := .recover base log applied
    peers := ∅
    commandWaiters := ∅
    changeWaiters := ∅
    persisted := hard
    recorder := durable.recorder
    effects := [] }

/-- What outlives the node. -/
def durable (n : Node σ) : Durable σ := ⟨n.disk, n.recorder⟩

end Node

end Consensus
