import Consensus.Message.Basic
import Consensus.Text.Quoted

/-!
# Answers in words

The text of an answer for people: the name of the alternative, then its fields by name.
-/

namespace Consensus

/-- An optional id: `None`, or the id in `Some(..)`. -/
def describeId : Option Nat → String
  | none => "None"
  | some id => "Some(" ++ toString id ++ ")"

/-- A name with its fields, between braces. -/
def describeFields (name : String) (fields : List (String × String)) : String :=
  name ++ " \x7b " ++ ", ".intercalate (fields.map fun (field, value) => field ++ ": " ++ value) ++
    " \x7d"

/-- A name with one content, between brackets. -/
def describeContent (name content : String) : String := name ++ "(" ++ content ++ ")"

namespace ChangeStatus

/-- The status in words. -/
def describe : ChangeStatus → String
  | .ok => "Ok"
  | .timeout => "Timeout"
  | .notLeader => "NotLeader"

end ChangeStatus

namespace CommandReply

/-- The answer in words. -/
def describe : CommandReply → String
  | .applied index => describeFields "Applied" [("index", toString index)]
  | .notLeader hint => describeFields "NotLeader" [("leader_hint", describeId hint)]
  | .leadershipLost => "LeadershipLost"
  | .timeout => "Timeout"
  | .failed reason => describeFields "Failed" [("reason", Text.quoted reason)]

end CommandReply

namespace Response

/-- The answer in words. -/
def describe : Response → String
  | .vote r => describeContent "Vote" (describeFields "VoteResponse"
      [("term", toString r.term), ("vote_granted", toString r.granted)])
  | .appendEntries r => describeContent "AppendEntries" (describeFields "AppendEntriesResponse"
      [("term", toString r.term), ("success", toString r.success),
        ("match_index", toString r.matchIndex)])
  | .installSnapshot r => describeContent "InstallSnapshot"
      (describeFields "InstallSnapshotResponse"
        [("term", toString r.term), ("success", toString r.success)])
  | .configChange r => describeContent "ConfigChange" (describeFields "ConfigChangeResponse"
      [("status", r.status.describe), ("leader_hint", describeId r.leaderHint)])
  | .command r => describeContent "Command" r.describe
  | .leader id => describeContent "Leader" (describeId id)

end Response

end Consensus
