import Consensus.Error

/-!
# Reaching the leader from any node

A gateway tries the local node first. When it is told that another node leads, it asks that
node, and so on, for a bounded number of times. Each call is a sequence of moves: from what was
answered so far follows either the end of the call or one more node to ask.
-/

namespace Consensus.Gateway

/-- What a call does next: end with a result, or ask a node and go on from `next`. -/
inductive Move (State Result : Type) where
  | finish (result : Result)
  | ask (target : Nat) (request : Request) (next : State)

/-- A command on its way to the leader. Every node asked so far has said that it does not
lead. -/
structure Submission where
  /-- The node that the gateway belongs to. -/
  self : Nat
  payload : Bytes
  /-- How many more nodes may be asked. -/
  redirectsLeft : Nat
deriving DecidableEq

namespace Submission

/-- Follow a hint to another node, if there is one and it may still be followed. -/
def follow (s : Submission) (hint : Option Nat) : Move Submission (Except Error Nat) :=
  match s.redirectsLeft, hint with
  | left + 1, some leader =>
    if leader = s.self then .finish (.error (.notLeader hint))
    else .ask leader (.clientCommand s.payload) { s with redirectsLeft := left }
  | _, _ => .finish (.error (.notLeader hint))

/-- Go on from the answer of the local node. -/
def afterLocal (s : Submission) : Except Error Nat → Move Submission (Except Error Nat)
  | .error (.notLeader hint) => s.follow hint
  | result => .finish result

/-- Go on from the answer of a node that was asked. -/
def afterReply (s : Submission) : Except Error Response → Move Submission (Except Error Nat)
  | .ok (.command (.applied index)) => .finish (.ok index)
  | .ok (.command (.notLeader hint)) => s.follow hint
  | .ok (.command .leadershipLost) => .finish (.error .leadershipLost)
  | .ok (.command .timeout) => .finish (.error .timeout)
  | .ok (.command (.failed reason)) => .finish (.error (.transport (.reported reason)))
  | .ok other => .finish (.error (.transport (.unexpectedCommandAnswer other)))
  | .error e => .finish (.error e)

end Submission

/-- A membership change on its way to the leader. -/
structure ChangeRelay where
  request : Request
  /-- The node asked last. -/
  asked : Nat
  /-- How many more nodes may be asked. -/
  redirectsLeft : Nat
deriving DecidableEq

namespace ChangeRelay

/-- Go on from a reply: follow a hint to a node other than the one that gave it. A leader that
names itself is busy with another change. -/
def afterAnswer (c : ChangeRelay) (reply : ChangeReply) : Move ChangeRelay ChangeReply :=
  match c.redirectsLeft, reply.status, reply.leaderHint with
  | left + 1, .notLeader, some leader =>
    if leader = c.asked then .finish reply
    else .ask leader c.request { c with asked := leader, redirectsLeft := left }
  | _, _, _ => .finish reply

/-- Go on from the answer of a node that was asked. -/
def afterReply (c : ChangeRelay) : Except Error Response → Move ChangeRelay ChangeReply
  | .ok (.configChange reply) => c.afterAnswer reply
  | .ok _ => .finish (.refused none)
  | .error _ => .finish (.refused (some c.asked))

end ChangeRelay

/-- The leader named in the answer to the question who leads. -/
def leaderOf : Except Error Response → Except Error (Option Nat)
  | .ok (.leader id) => .ok id
  | .ok other => .error (.transport (.unexpectedLeaderAnswer other))
  | .error e => .error e

end Consensus.Gateway
