import Consensus.Node.Election
import Consensus.Node.Requests

/-!
# One event

The single entry point of a running node. A request is answered only after its handler came to
its end; an event whose handler fails is the node's last.
-/

namespace Consensus.Node

variable {σ : Type} [Storage σ]

/-- Handle one event. -/
def handle [Counting] : Event → Act σ Unit
  | .voteRequest ticket request => do
    let answer ← handleVoteRequest request
    reply ticket (.vote answer)
  | .appendRequest ticket request => do
    let answer ← handleAppendRequest request
    reply ticket (.append answer)
  | .installRequest ticket request => do
    let answer ← handleInstallRequest request
    reply ticket (.install answer)
  | .command ticket payload => handleCommand ticket payload
  | .change ticket change => handleChange ticket change
  | .voteReply peer term answer => handleVoteReply peer term answer
  | .replicationReply peer batch response => handleReplicationReply peer batch response
  | .campaign => startElection
  | .electionTimeout => handleElectionTimeout
  | .heartbeat => replicateAll

end Consensus.Node
