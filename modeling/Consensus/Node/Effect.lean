import Consensus.Error
import Consensus.Membership

/-!
# What happens to a node, and what it does

A node is told of events and causes effects. A caller names a ticket with its request and gets
its answer under the same ticket. Requests to peers go out through one replicator per peer,
which a leader starts and stops; what a request covered comes back with its reply.
-/

namespace Consensus

/-- What a request to a peer covered. -/
inductive BatchKind where
  | append (prevIndex count : Nat)
  | snapshot (lastIncludedIndex : Nat)
deriving DecidableEq

/-- A request to a peer in short, as it comes back with the reply. -/
structure Batch where
  term : Nat
  kind : BatchKind
deriving DecidableEq

/-- What a node is told. -/
inductive Event where
  /-- A candidate asks for a vote. -/
  | voteRequest (ticket : Nat) (request : VoteRequest)
  /-- A leader sends entries. -/
  | appendRequest (ticket : Nat) (request : AppendRequest)
  /-- A leader sends its snapshot. -/
  | installRequest (ticket : Nat) (request : InstallRequest)
  /-- A client hands in a command. -/
  | command (ticket : Nat) (payload : Bytes)
  /-- An operator asks for a membership change. -/
  | change (ticket : Nat) (change : ServerChange)
  /-- A peer answered the vote request of the given term. -/
  | voteReply (peer term : Nat) (reply : VoteReply)
  /-- A request to a peer ended, with its response or without one. -/
  | replicationReply (peer : Nat) (batch : Batch) (response : Option Response)
  /-- An election is wanted now. -/
  | campaign
  /-- No leader was heard for the length of the election timeout. -/
  | electionTimeout
  /-- A leader's heartbeat is due. -/
  | heartbeat
deriving DecidableEq

/-- What a caller gets for its ticket. -/
inductive Answer where
  | vote (reply : VoteReply)
  | append (reply : AppendReply)
  | install (reply : InstallReply)
  /-- The command was applied at this index. -/
  | applied (index : Nat)
  /-- The command was not applied, as far as this node can tell. -/
  | refused (error : Error)
  | change (reply : ChangeReply)
deriving DecidableEq

/-- What a node does to the outside. -/
inductive Effect where
  /-- Answer the caller that holds the ticket. -/
  | answer (ticket : Nat) (answer : Answer)
  /-- Ask a peer for its vote. -/
  | requestVote (peer : Nat) (request : VoteRequest)
  /-- Start a replicator for a peer. -/
  | startReplicator (peer : Nat)
  /-- Stop the replicator of a peer, whatever it is doing. -/
  | stopReplicator (peer : Nat)
  /-- Hand a request to the replicator of a peer. -/
  | dispatch (peer : Nat) (request : Request) (batch : Batch)
  /-- Wait for a full election timeout from now on. -/
  | resetElectionTimer
  /-- Give the consumer the command committed at `index`. -/
  | consume (index : Nat) (command : Bytes)
  /-- Tell everyone who watches how far the log is applied. -/
  | announce (applied : Nat)
deriving DecidableEq

end Consensus
