import Consensus.Node.Commit

/-!
# Replicating to peers

A leader has at most one request to each peer outstanding. A peer whose next entry is still in
the log gets the entries from there on, at most a batch of them; a peer that needs compacted
entries gets the stored snapshot.
-/

namespace Consensus.Node

variable {σ : Type} [Storage σ]

/-- Hand a request to the replicator of a peer. A replicator for which too many requests wait
drops it; that is the same as a request that ends at once without a response, since no event
looks at the mark of one peer twice. -/
def dispatch (n : Node σ) (peer : Nat) (request : Request) (kind : BatchKind) : Node σ :=
  { n.emit (.dispatch peer request ⟨n.standing.currentTerm, kind⟩) with
    peers := n.peers.modify peer fun p => { p with inFlight := true } }

/-- The request that brings a peer a snapshot. -/
def installRequest (n : Node σ) (snapshot : Snapshot) : InstallRequest :=
  { term := n.standing.currentTerm, leader := n.self, lastIncludedIndex := snapshot.index,
    lastIncludedTerm := snapshot.term, members := snapshot.members, data := snapshot.data }

/-- The request that brings a peer the entries after `prevIndex`, at most a batch. -/
def appendRequest [Counting] (n : Node σ) (prevIndex prevTerm : Nat) : AppendRequest :=
  { term := n.standing.currentTerm, leader := n.self, prevIndex := prevIndex,
    prevTerm := prevTerm, entries := n.log.entriesFrom (Counting.plus prevIndex 1) n.settings.maxBatch,
    leaderCommit := n.standing.commitIndex }

/-- Send a peer what it needs next, if it is known and nothing is under way to it. -/
def replicateTo [Counting] (peer : Nat) : Act σ Unit := do
  let n ← get
  match n.peers.get? peer with
  | none => return
  | some progress =>
    if progress.inFlight then
      return
    if progress.nextIndex ≤ n.log.snapshotIndex then
      match ← onDisk (Storage.inspect Storage.loadSnapshot) with
      | none => throw (.corrupted (.missingSnapshot n.log.snapshotIndex))
      | some snapshot =>
        modify fun n => n.dispatch peer (.installSnapshot (n.installRequest snapshot))
          (.snapshot snapshot.index)
    else
      let nextIndex := min progress.nextIndex (Counting.plus n.log.lastIndex 1)
      let prevIndex := Counting.minus nextIndex 1
      match n.log.termAt? prevIndex with
      | none => throw (.corrupted (.missingLogTerm prevIndex))
      | some prevTerm =>
        let request := n.appendRequest prevIndex prevTerm
        modify fun n => n.dispatch peer (.appendEntries request)
          (.append prevIndex request.entries.length)

/-- Send every peer what it needs next. -/
def replicateAll [Counting] : Act σ Unit := do
  let n ← get
  if n.standing.role ≠ .leader then
    return
  n.peers.keys.forM replicateTo

/-- The outcome of a request to a peer, as far as the peer's progress goes. -/
def recordReply (n : Node σ) (peer : Nat) (change : Progress → Progress) : Node σ :=
  { n with peers := n.peers.modify peer change }

/-- Go on after a reply: commit what can be committed, and send a peer that is behind what it
needs next. -/
def continueReplication [Counting] (peer : Nat) : Act σ Unit := do
  advanceCommit
  let n ← get
  let behind := ((n.peers.get? peer).map fun p => decide (p.nextIndex ≤ n.log.lastIndex)).getD false
  if behind ∧ n.standing.role = .leader then
    replicateTo peer

/-- A request to a peer ended. Replies of an earlier leadership do not count; a reply of a newer
term ends this one. -/
def handleReplicationReply [Counting] (peer : Nat) (batch : Batch) (response : Option Response) :
    Act σ Unit := do
  let n ← get
  if n.standing.role ≠ .leader ∨ batch.term ≠ n.standing.currentTerm ∨
      (n.peers.get? peer).isNone then
    return
  modify (·.recordReply peer fun p => { p with inFlight := false })
  match batch.kind, response with
  | .append prevIndex count, some (.appendEntries reply) =>
    if n.standing.currentTerm < reply.term then
      stepDown reply.term
    else
      modify (·.recordReply peer fun p =>
        if reply.success then p.recordSuccess (Counting.plus prevIndex count)
        else p.recordMismatch reply.matchIndex)
      continueReplication peer
  | .snapshot index, some (.installSnapshot reply) =>
    if n.standing.currentTerm < reply.term then
      stepDown reply.term
    else
      if reply.success then
        modify (·.recordReply peer (·.recordSuccess index))
      continueReplication peer
  | _, _ => return

end Consensus.Node
