import Consensus.Entry

/-!
# Messages

Every request that a node accepts from the network, and every answer it gives.
-/

namespace Consensus

/-- A candidate asks for a vote. -/
structure VoteRequest where
  term : Nat
  candidate : Nat
  lastLogIndex : Nat
  lastLogTerm : Nat
deriving DecidableEq

/-- The answer to a vote request. -/
structure VoteReply where
  term : Nat
  granted : Bool
deriving DecidableEq

/-- A leader sends the entries that follow `prevIndex`. -/
structure AppendRequest where
  term : Nat
  leader : Nat
  prevIndex : Nat
  prevTerm : Nat
  entries : List Entry
  leaderCommit : Nat
deriving DecidableEq

/-- The answer to an append request. On success `matchIndex` is the last index known to agree
with the leader's log, otherwise a hint where to try again. -/
structure AppendReply where
  term : Nat
  success : Bool
  matchIndex : Nat
deriving DecidableEq

/-- A leader sends its snapshot to a peer that needs compacted entries. -/
structure InstallRequest where
  term : Nat
  leader : Nat
  lastIncludedIndex : Nat
  lastIncludedTerm : Nat
  members : NodeSet
  data : Bytes
deriving DecidableEq

/-- The answer to a snapshot. -/
structure InstallReply where
  term : Nat
  success : Bool
deriving DecidableEq

/-- How a membership change ended. -/
inductive ChangeStatus where
  /-- It committed, or there was nothing to change. -/
  | ok
  /-- It did not commit in time. -/
  | timeout
  /-- Ask the hinted node instead. -/
  | notLeader
deriving DecidableEq

/-- The answer to a membership change. -/
structure ChangeReply where
  status : ChangeStatus
  leaderHint : Option Nat
deriving DecidableEq

namespace ChangeReply

/-- Done, says `leader`. -/
def done (leader : Nat) : ChangeReply := ⟨.ok, some leader⟩

/-- Not done in time. -/
def late (hint : Option Nat) : ChangeReply := ⟨.timeout, hint⟩

/-- To be asked of the hinted node. -/
def refused (hint : Option Nat) : ChangeReply := ⟨.notLeader, hint⟩

end ChangeReply

/-- How a forwarded command ended. -/
inductive CommandReply where
  | applied (index : Nat)
  | notLeader (hint : Option Nat)
  | leadershipLost
  | timeout
  | failed (reason : String)
deriving DecidableEq

/-- A request from the network. -/
inductive Request where
  | requestVote (request : VoteRequest)
  | appendEntries (request : AppendRequest)
  | installSnapshot (request : InstallRequest)
  | addServer (peer : Nat)
  | removeServer (peer : Nat)
  | clientCommand (payload : Bytes)
  | whoIsTheLeader
deriving DecidableEq

/-- The answer to a request. -/
inductive Response where
  | vote (reply : VoteReply)
  | appendEntries (reply : AppendReply)
  | installSnapshot (reply : InstallReply)
  | configChange (reply : ChangeReply)
  | command (reply : CommandReply)
  | leader (id : Option Nat)
deriving DecidableEq

/-- A short name for the kind of a request. -/
def Request.kind : Request → String
  | .requestVote _ => "request_vote"
  | .appendEntries _ => "append_entries"
  | .installSnapshot _ => "install_snapshot"
  | .addServer _ => "add_server"
  | .removeServer _ => "remove_server"
  | .clientCommand _ => "client_command"
  | .whoIsTheLeader => "who_is_the_leader"

end Consensus
