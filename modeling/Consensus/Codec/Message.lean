import Consensus.Codec.Stored
import Consensus.Message.Basic

/-!
# The JSON form of messages

Requests and responses as they travel between nodes.
-/

namespace Consensus

/-- Read a record of one field. -/
def Json.field1? {α : Type} (name : String) (form : Option Json → Option α) (j : Json) :
    Option α :=
  match j.fields? [name] with
  | some [content] => form content
  | _ => none

namespace VoteRequest

/-- A vote request as a record. -/
def toJson (r : VoteRequest) : Json :=
  .ofRecord [("term", .ofNat r.term), ("candidate_id", .ofNat r.candidate),
    ("last_log_index", .ofNat r.lastLogIndex), ("last_log_term", .ofNat r.lastLogTerm)]

/-- Read a vote request. -/
def ofJson? (j : Json) : Option VoteRequest :=
  match j.fields? ["term", "candidate_id", "last_log_index", "last_log_term"] with
  | some [term, candidate, lastIndex, lastTerm] => do
    return ⟨← Json.required Json.word? term, ← Json.required Json.word? candidate,
      ← Json.required Json.word? lastIndex, ← Json.required Json.word? lastTerm⟩
  | _ => none

end VoteRequest

namespace VoteReply

/-- A vote as a record. -/
def toJson (r : VoteReply) : Json :=
  .ofRecord [("term", .ofNat r.term), ("vote_granted", .bool r.granted)]

/-- Read a vote. -/
def ofJson? (j : Json) : Option VoteReply :=
  match j.fields? ["term", "vote_granted"] with
  | some [term, granted] => do
    return ⟨← Json.required Json.word? term, ← Json.required Json.bool? granted⟩
  | _ => none

end VoteReply

namespace AppendRequest

/-- An append request as a record. -/
def toJson (r : AppendRequest) : Json :=
  .ofRecord [("term", .ofNat r.term), ("leader_id", .ofNat r.leader),
    ("prev_log_index", .ofNat r.prevIndex), ("prev_log_term", .ofNat r.prevTerm),
    ("entries", .ofList Entry.toJson r.entries), ("leader_commit", .ofNat r.leaderCommit)]

/-- Read an append request. -/
def ofJson? (j : Json) : Option AppendRequest :=
  match j.fields? ["term", "leader_id", "prev_log_index", "prev_log_term", "entries",
      "leader_commit"] with
  | some [term, leader, prevIndex, prevTerm, entries, leaderCommit] => do
    return ⟨← Json.required Json.word? term, ← Json.required Json.word? leader,
      ← Json.required Json.word? prevIndex, ← Json.required Json.word? prevTerm,
      ← Json.required (Json.list? Entry.ofJson?) entries,
      ← Json.required Json.word? leaderCommit⟩
  | _ => none

end AppendRequest

namespace AppendReply

/-- An append reply as a record. -/
def toJson (r : AppendReply) : Json :=
  .ofRecord [("term", .ofNat r.term), ("success", .bool r.success),
    ("match_index", .ofNat r.matchIndex)]

/-- Read an append reply. -/
def ofJson? (j : Json) : Option AppendReply :=
  match j.fields? ["term", "success", "match_index"] with
  | some [term, success, matchIndex] => do
    return ⟨← Json.required Json.word? term, ← Json.required Json.bool? success,
      ← Json.required Json.word? matchIndex⟩
  | _ => none

end AppendReply

namespace InstallRequest

/-- A snapshot on its way, as a record. -/
def toJson (r : InstallRequest) : Json :=
  .ofRecord [("term", .ofNat r.term), ("leader_id", .ofNat r.leader),
    ("last_included_index", .ofNat r.lastIncludedIndex),
    ("last_included_term", .ofNat r.lastIncludedTerm), ("config", r.members.toJson),
    ("data", .ofBytes r.data)]

/-- Read a snapshot on its way. -/
def ofJson? (j : Json) : Option InstallRequest :=
  match j.fields? ["term", "leader_id", "last_included_index", "last_included_term", "config",
      "data"] with
  | some [term, leader, index, lastTerm, members, data] => do
    return ⟨← Json.required Json.word? term, ← Json.required Json.word? leader,
      ← Json.required Json.word? index, ← Json.required Json.word? lastTerm,
      ← Json.required NodeSet.ofJson? members, ← Json.required Json.bytes? data⟩
  | _ => none

end InstallRequest

namespace InstallReply

/-- The reply to a snapshot as a record. -/
def toJson (r : InstallReply) : Json :=
  .ofRecord [("term", .ofNat r.term), ("success", .bool r.success)]

/-- Read the reply to a snapshot. -/
def ofJson? (j : Json) : Option InstallReply :=
  match j.fields? ["term", "success"] with
  | some [term, success] => do
    return ⟨← Json.required Json.word? term, ← Json.required Json.bool? success⟩
  | _ => none

end InstallReply

namespace ChangeStatus

/-- A status by name. -/
def toJson : ChangeStatus → Json
  | .ok => .ofText "Ok"
  | .timeout => .ofText "Timeout"
  | .notLeader => .ofText "NotLeader"

/-- Read a status. -/
def ofJson? (j : Json) : Option ChangeStatus :=
  match j.variant? with
  | some (name, content) =>
    if Json.isBare content then
      match name with
      | "Ok" => some .ok
      | "Timeout" => some .timeout
      | "NotLeader" => some .notLeader
      | _ => none
    else none
  | none => none

end ChangeStatus

namespace ChangeReply

/-- The reply to a membership change as a record. -/
def toJson (r : ChangeReply) : Json :=
  .ofRecord [("status", r.status.toJson), ("leader_hint", .ofOption .ofNat r.leaderHint)]

/-- Read the reply to a membership change. -/
def ofJson? (j : Json) : Option ChangeReply :=
  match j.fields? ["status", "leader_hint"] with
  | some [status, hint] => do
    return ⟨← Json.required ChangeStatus.ofJson? status, ← Json.optional Json.word? hint⟩
  | _ => none

end ChangeReply

namespace CommandReply

/-- The reply to a command by alternative. -/
def toJson : CommandReply → Json
  | .applied index => .ofVariant "Applied" (.ofRecord [("index", .ofNat index)])
  | .notLeader hint =>
    .ofVariant "NotLeader" (.ofRecord [("leader_hint", .ofOption .ofNat hint)])
  | .leadershipLost => .ofText "LeadershipLost"
  | .timeout => .ofText "Timeout"
  | .failed reason => .ofVariant "Failed" (.ofRecord [("reason", .ofText reason)])

/-- Read the reply to a command. -/
def ofJson? (j : Json) : Option CommandReply :=
  match j.variant? with
  | some ("Applied", some content) =>
    (content.field1? "index" (Json.required Json.word?)).map .applied
  | some ("NotLeader", some content) =>
    (content.field1? "leader_hint" (Json.optional Json.word?)).map .notLeader
  | some ("LeadershipLost", content) => if Json.isBare content then some .leadershipLost else none
  | some ("Timeout", content) => if Json.isBare content then some .timeout else none
  | some ("Failed", some content) =>
    (content.field1? "reason" (Json.required Json.text?)).map .failed
  | _ => none

end CommandReply

namespace Request

/-- A request by alternative. -/
def toJson : Request → Json
  | .requestVote r => .ofVariant "RequestVote" r.toJson
  | .appendEntries r => .ofVariant "AppendEntries" r.toJson
  | .installSnapshot r => .ofVariant "InstallSnapshot" r.toJson
  | .addServer peer => .ofVariant "AddServer" (.ofRecord [("peer_id", .ofNat peer)])
  | .removeServer peer => .ofVariant "RemoveServer" (.ofRecord [("peer_id", .ofNat peer)])
  | .clientCommand payload =>
    .ofVariant "ClientCommand" (.ofRecord [("payload", .ofBytes payload)])
  | .whoIsTheLeader => .ofText "WhoIsTheLeader"

/-- Read a request. -/
def ofJson? (j : Json) : Option Request :=
  match j.variant? with
  | some ("RequestVote", some content) => (VoteRequest.ofJson? content).map .requestVote
  | some ("AppendEntries", some content) => (AppendRequest.ofJson? content).map .appendEntries
  | some ("InstallSnapshot", some content) =>
    (InstallRequest.ofJson? content).map .installSnapshot
  | some ("AddServer", some content) =>
    (content.field1? "peer_id" (Json.required Json.word?)).map .addServer
  | some ("RemoveServer", some content) =>
    (content.field1? "peer_id" (Json.required Json.word?)).map .removeServer
  | some ("ClientCommand", some content) =>
    (content.field1? "payload" (Json.required Json.bytes?)).map .clientCommand
  | some ("WhoIsTheLeader", content) => if Json.isBare content then some .whoIsTheLeader else none
  | _ => none

/-- The bytes of a request. -/
def encode (r : Request) : Bytes := r.toJson.print

/-- The request that the bytes spell. -/
def decode? (bytes : Bytes) : Option Request := Json.read? bytes >>= ofJson?

end Request

namespace Response

/-- A response by alternative. -/
def toJson : Response → Json
  | .vote r => .ofVariant "Vote" r.toJson
  | .appendEntries r => .ofVariant "AppendEntries" r.toJson
  | .installSnapshot r => .ofVariant "InstallSnapshot" r.toJson
  | .configChange r => .ofVariant "ConfigChange" r.toJson
  | .command r => .ofVariant "Command" r.toJson
  | .leader id => .ofVariant "Leader" (.ofOption .ofNat id)

/-- Read a response. -/
def ofJson? (j : Json) : Option Response :=
  match j.variant? with
  | some ("Vote", some content) => (VoteReply.ofJson? content).map .vote
  | some ("AppendEntries", some content) => (AppendReply.ofJson? content).map .appendEntries
  | some ("InstallSnapshot", some content) => (InstallReply.ofJson? content).map .installSnapshot
  | some ("ConfigChange", some content) => (ChangeReply.ofJson? content).map .configChange
  | some ("Command", some content) => (CommandReply.ofJson? content).map .command
  | some ("Leader", some content) => (Json.nullable Json.word? content).map .leader
  | _ => none

/-- The bytes of a response. -/
def encode (r : Response) : Bytes := r.toJson.print

/-- The response that the bytes spell. -/
def decode? (bytes : Bytes) : Option Response := Json.read? bytes >>= ofJson?

end Response

end Consensus
