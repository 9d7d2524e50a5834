import Consensus.Node.Effect

/-!
# What a caller makes of an answer

A caller that gets no answer at all, because the node ended, is told that the node has shut
down, in whatever form its call has for that. Requests from the network have a response for
every answer.
-/

namespace Consensus

/-- What kind of call a caller waits on. -/
inductive CallKind where
  /-- A request between peers. -/
  | peer
  /-- A command; it is given up after a while. -/
  | command
  /-- A membership change; it is given up after a while. -/
  | change
deriving DecidableEq

/-- The answer when the node ends before it gives one. -/
def CallKind.lost : CallKind → Option Answer
  | .peer => none
  | .command => some (.refused .shutdown)
  | .change => some (.change (.refused none))

/-- The answer when the caller gives up, `leader` being the leader known then. -/
def CallKind.late (leader : Option Nat) : CallKind → Option Answer
  | .peer => none
  | .command => some (.refused .timeout)
  | .change => some (.change (.late leader))

/-- A failed submission as a reply to the node that forwarded the command. -/
def CommandReply.ofError : Error → CommandReply
  | .notLeader hint => .notLeader hint
  | .leadershipLost => .leadershipLost
  | .timeout => .timeout
  | e => .failed e.message

namespace Answer

/-- The answer as a response on the network. -/
def toResponse : Answer → Response
  | .vote reply => .vote reply
  | .append reply => .appendEntries reply
  | .install reply => .installSnapshot reply
  | .applied index => .command (.applied index)
  | .refused e => .command (.ofError e)
  | .change reply => .configChange reply

/-- The response to a request from the network. -/
def response? : Option Answer → Except Error Response
  | some answer => .ok answer.toResponse
  | none => .error .shutdown

/-- The result of a submission. -/
def index? : Option Answer → Except Error Nat
  | some (.applied index) => .ok index
  | some (.refused e) => .error e
  | _ => .error .shutdown

/-- The result of a membership change. -/
def changeReply : Option Answer → ChangeReply
  | some (.change reply) => reply
  | _ => .refused none

end Answer

/-- The kind of call that a request makes on a node, and the event that it becomes; the
question who leads needs no event. -/
def Request.event? (request : Request) (ticket : Nat) : Option (CallKind × Event) :=
  match request with
  | .requestVote r => some (.peer, .voteRequest ticket r)
  | .appendEntries r => some (.peer, .appendRequest ticket r)
  | .installSnapshot r => some (.peer, .installRequest ticket r)
  | .addServer peer => some (.change, .change ticket (.add peer))
  | .removeServer peer => some (.change, .change ticket (.remove peer))
  | .clientCommand payload => some (.command, .command ticket payload)
  | .whoIsTheLeader => none

end Consensus
