import Consensus.Node.Replication

/-!
# Requests from others

Votes, entries and snapshots asked for or sent by peers, and commands and membership changes
handed in by clients. Term and vote are on the disk before an answer leaves.
-/

namespace Consensus.Node

variable {σ : Type} [Storage σ]

/-- Answer the caller that holds the ticket. -/
def reply (ticket : Nat) (answer : Answer) : Act σ Unit :=
  modify fun n => n.emit (.answer ticket answer)

/-- A candidate asks for a vote. A vote given restarts the election timer. -/
def handleVoteRequest (request : VoteRequest) : Act σ VoteReply := do
  let n ← get
  let (reply, standing) := n.standing.answerVote n.log request
  set { n with standing := standing }
  persist
  modify (·.afterRoleChange n.standing.role)
  if reply.granted then
    modify (·.emit .resetElectionTimer)
  return reply

/-- A leader sends entries. A newer term is stored before any of its entries. -/
def handleAppendRequest [Counting] (request : AppendRequest) : Act σ AppendReply := do
  let before := (← get).standing
  if before.currentTerm < request.term then
    modify (·.mapStanding (·.observeTerm request.term))
    persist
  let reply ← onReplica (Replica.answerAppend request)
  persist
  modify (·.afterRoleChange before.role)
  if before.currentTerm ≤ request.term then
    modify (·.emit .resetElectionTimer)
  modify fun n => { n with
    membership := n.membership.refreshPending (n.log.entriesAfter n.standing.lastApplied) }
  applyCommitted
  return reply

/-- Make the snapshot in a request the base of log, consumer and membership. The entries after
it stay if the log agrees with it at its end, otherwise the log starts over. -/
def installSnapshot [Counting] (request : InstallRequest) : Act σ Unit := do
  let index := request.lastIncludedIndex
  let term := request.lastIncludedTerm
  onDisk (Storage.saveSnapshot ⟨index, term, request.members, request.data⟩)
  if (← get).log.termAt? index = some term then
    onJournal (Journal.compactTo index term)
  else
    onJournal (Journal.resetTo index term)
  let n ← get
  match n.recorder.restore request.data with
  | .error e => throw e
  | .ok recorder =>
    set { n with
      recorder := recorder
      membership :=
        (Membership.settled request.members).refreshPending (n.log.entriesAfter index)
      standing := { n.standing with
        lastApplied := index, commitIndex := max n.standing.commitIndex index } }
    applyCommitted

/-- A leader sends its snapshot. One that covers nothing new is acknowledged and ignored. -/
def handleInstallRequest [Counting] (request : InstallRequest) : Act σ InstallReply := do
  let before := (← get).standing
  if request.term < before.currentTerm then
    return ⟨before.currentTerm, false⟩
  modify (·.mapStanding fun s =>
    let s := s.observeTerm request.term
    let s := if s.role ≠ .follower then s.becomeFollower request.term else s
    { s with leader := some request.leader })
  persist
  modify fun n => (n.afterRoleChange before.role).emit .resetElectionTimer
  if (← get).standing.lastApplied < request.lastIncludedIndex then
    installSnapshot request
  return ⟨(← get).standing.currentTerm, true⟩

/-- A client hands in a command. It is answered once it is applied. -/
def handleCommand [Counting] (ticket : Nat) (payload : Bytes) : Act σ Unit := do
  let n ← get
  if n.standing.role ≠ .leader then
    reply ticket (.refused (.notLeader n.standing.leader))
  else
    let term := n.standing.currentTerm
    let index ← onJournal (Journal.append term (.command payload))
    modify fun n => { n with commandWaiters := n.commandWaiters.insert index ⟨term, ticket⟩ }
    advanceCommit
    replicateAll

/-- An operator asks for a membership change. It is answered once it is applied; a leader busy
with another change names itself as the one to ask again. -/
def handleChange [Counting] (ticket : Nat) (change : ServerChange) : Act σ Unit := do
  let n ← get
  if n.standing.role ≠ .leader then
    reply ticket (.change (.refused n.standing.leader))
  else if n.membership.pending.isSome then
    reply ticket (.change (.refused (some n.self)))
  else if n.membership.committed.isUnchangedBy change then
    reply ticket (.change (.done n.self))
  else
    let term := n.standing.currentTerm
    let members := n.membership.committed.withChange change
    let index ← onJournal (Journal.append term (.config members))
    modify fun n =>
      let n := { n with
        membership := n.membership.onAppend index members
        changeWaiters := n.changeWaiters.insert index ⟨term, ticket⟩ }
      n.syncPeers n.targets (Counting.plus n.log.lastIndex 1)
    advanceCommit
    replicateAll

end Consensus.Node
