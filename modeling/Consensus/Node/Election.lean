import Consensus.Node.Replication

/-!
# Elections

Only a committed member stands for election. A candidate stores its new term and its own vote
before anything leaves the node, and leads once a majority of the committed members has voted
for it. A new leader appends an entry of its own term, behind which entries of earlier terms
can be committed.
-/

namespace Consensus.Node

variable {σ : Type} [Storage σ]

/-- Lead the current term. -/
def becomeLeader [Counting] : Act σ Unit := do
  modify fun n =>
    let n := n.mapStanding (·.becomeLeader n.self)
    n.stopReplication.syncPeers n.targets (Counting.plus n.log.lastIndex 1)
  let _ ← onJournal (Journal.append (← get).standing.currentTerm .noop)
  advanceCommit
  replicateAll

/-- The vote request of a candidate. -/
def voteRequest (n : Node σ) : VoteRequest :=
  { term := n.standing.currentTerm, candidate := n.self, lastLogIndex := n.log.lastIndex,
    lastLogTerm := n.log.lastTerm }

/-- Stand for election in the next term. -/
def startElection [Counting] : Act σ Unit := do
  let n ← get
  if n.self ∉ n.membership.committed then
    return
  let before := n.standing.role
  modify (·.mapStanding (·.becomeCandidate n.self))
  persist
  modify fun n => (n.afterRoleChange before).emit .resetElectionTimer
  let n ← get
  if n.membership.committed.hasQuorum n.standing.votes then
    becomeLeader
  else
    let others := n.membership.committed.erase n.self
    set (n.emitAll (others.toList.map fun peer => .requestVote peer n.voteRequest))

/-- No leader was heard for the length of the election timeout. -/
def handleElectionTimeout [Counting] : Act σ Unit := do
  let n ← get
  if n.standing.role = .leader then
    return
  if n.self ∉ n.membership.committed then
    set (n.emit .resetElectionTimer)
  else
    startElection

/-- A peer answered the vote request of the given term. -/
def handleVoteReply [Counting] (peer term : Nat) (reply : VoteReply) : Act σ Unit := do
  let n ← get
  if n.standing.currentTerm < reply.term then
    stepDown reply.term
  else if n.standing.role ≠ .candidate ∨ term ≠ n.standing.currentTerm ∨ !reply.granted then
    return
  else
    let n := n.mapStanding fun s => { s with votes := s.votes.insert peer }
    set n
    if n.membership.committed.hasQuorum n.standing.votes then
      becomeLeader

end Consensus.Node
