import Consensus.Message.Description

/-!
# Errors

What can go wrong, by cause, and the wording of each. Errors of the disk, of decoding and of
the persisted state are fatal: a node that meets one must stop taking part.
-/

namespace Consensus

/-- The kinds of write that a disk offers. -/
inductive WriteKind where
  | hardState
  | append
  | truncate
  | compact
  | snapshot
deriving DecidableEq

/-- The kind of a write in a word. -/
def WriteKind.name : WriteKind → String
  | .hardState => "hard"
  | .append => "append"
  | .truncate => "truncate"
  | .compact => "compact"
  | .snapshot => "snapshot"

/-- Why a disk could not be read or written. -/
inductive StorageFault where
  /-- The file system refused, for reasons of its own. -/
  | unavailable
  /-- Writes of this kind are set to fail. -/
  | injected (kind : WriteKind)
  /-- Every write to the log is set to fail. -/
  | readOnly
  /-- A failure known by its text only. -/
  | reported (text : String)
deriving DecidableEq

/-- Why a persisted state cannot be used. -/
inductive Corruption where
  | logGap (expected found : Nat)
  | termRegression (index term least : Nat)
  | termBehindLog (term lastLogTerm : Nat)
  | appliedBeyondLog (applied lastLogIndex : Nat)
  | missingSnapshot (compactedTo : Nat)
  | missingLogTerm (index : Nat)
  | missingEntry (index : Nat)
  | missingAppliedTerm (index : Nat)
  /-- The contents of a file are not what they should be. -/
  | unreadableFile (name : String)
  /-- A line of the log file is not an entry; lines count from 1. -/
  | unreadableLine (name : String) (line : Nat)
  /-- A contradiction known by its text only. -/
  | reported (text : String)
deriving DecidableEq

/-- Why settings cannot work. -/
inductive SettingsFault where
  | electionRange (least most : Nat)
  | slowHeartbeat (heartbeat election : Nat)
  | emptyBatches
  | noCompactionThreshold
  | missingSelf (id : Nat) (members : List Nat)
  /-- A fault known by its text only. -/
  | reported (text : String)
deriving DecidableEq

/-- Why a message exchange failed other than by silence. -/
inductive TransportFault where
  | unexpectedLeaderAnswer (response : Response)
  | unexpectedCommandAnswer (response : Response)
  /-- A failure known by its text only. -/
  | reported (text : String)
deriving DecidableEq

/-- What can go wrong. -/
inductive Error where
  /-- Only the leader can do this; the hint names it if it is known. -/
  | notLeader (hint : Option Nat)
  | leadershipLost
  | timeout
  | storage (fault : StorageFault)
  | serialization
  | corrupted (cause : Corruption)
  | transport (fault : TransportFault)
  | unreachable (peer : Nat)
  | invalidSettings (fault : SettingsFault)
  | shutdown
deriving DecidableEq

/-- A list of ids between brackets. -/
def describeIds (ids : List Nat) : String := "[" ++ ", ".intercalate (ids.map toString) ++ "]"

/-- The cause in words. -/
def Corruption.message : Corruption → String
  | .logGap expected found =>
    "log gap: expected index " ++ toString expected ++ ", found " ++ toString found
  | .termRegression index term least =>
    "term regression at index " ++ toString index ++ ": " ++ toString term ++ " < " ++
      toString least
  | .termBehindLog term lastLogTerm =>
    "persisted term " ++ toString term ++ " is behind last log term " ++ toString lastLogTerm
  | .appliedBeyondLog applied lastLogIndex =>
    "state machine applied index " ++ toString applied ++ " beyond last log index " ++
      toString lastLogIndex
  | .missingSnapshot compactedTo =>
    "log compacted to " ++ toString compactedTo ++ " but no snapshot is stored"
  | .missingLogTerm index => "missing term for log index " ++ toString index
  | .missingEntry index => "committed entry " ++ toString index ++ " missing from log"
  | .missingAppliedTerm index => "missing term for applied index " ++ toString index
  | .unreadableFile name => name
  | .unreadableLine name line => name ++ " line " ++ toString line
  | .reported text => text

/-- The fault in words. -/
def SettingsFault.message : SettingsFault → String
  | .electionRange least most =>
    "election timeout range " ++ toString least ++ "..=" ++ toString most ++ " is invalid"
  | .slowHeartbeat heartbeat election =>
    "heartbeat interval " ++ toString heartbeat ++ "ms must be below the election timeout " ++
      toString election ++ "ms"
  | .emptyBatches => "max_append_entries must be at least 1"
  | .noCompactionThreshold => "compaction_threshold must be at least 1"
  | .missingSelf id members =>
    "node " ++ toString id ++ " missing from bootstrap members " ++ describeIds members
  | .reported text => text

/-- The fault in words. -/
def TransportFault.message : TransportFault → String
  | .unexpectedLeaderAnswer response =>
    "unexpected response to WhoIsTheLeader: " ++ response.describe
  | .unexpectedCommandAnswer response =>
    "unexpected response to ClientCommand: " ++ response.describe
  | .reported text => text

namespace Error

/-- The error in words. -/
def message : Error → String
  | .notLeader hint => "Not the leader, current leader is node " ++ describeId hint
  | .leadershipLost => "Leadership lost before the entry was committed"
  | .timeout => "Operation timed out"
  | .storage .unavailable => "Storage error"
  | .storage (.injected kind) => "Storage error: injected " ++ kind.name ++ " failure"
  | .storage .readOnly => "Storage error: injected write failure"
  | .storage (.reported text) => "Storage error: " ++ text
  | .serialization => "Serialization error"
  | .corrupted cause => "Corrupted persistent state: " ++ cause.message
  | .transport fault => "Transport error: " ++ fault.message
  | .unreachable peer => "Peer " ++ toString peer ++ " is unreachable"
  | .invalidSettings fault => "Invalid configuration: " ++ fault.message
  | .shutdown => "Raft node has shut down"

/-- Whether a node that meets this error must stop taking part. -/
def isFatal : Error → Bool
  | .storage _ => true
  | .serialization => true
  | .corrupted _ => true
  | _ => false

end Error

end Consensus
