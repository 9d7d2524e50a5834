import Consensus.Error

/-!
# Settings of a node

`members` is the membership a cluster starts with, this node included; once membership entries
commit, the replicated membership wins. No members at all is allowed: such a node waits to be
added by a leader. Times are in milliseconds.
-/

namespace Consensus

/-- Settings of one node. -/
structure Settings where
  nodeId : Nat := 1
  members : List Nat := [1]
  electionMin : Nat := 150
  electionMax : Nat := 300
  heartbeat : Nat := 50
  /-- How long a request may stay unanswered before it counts as lost. -/
  requestTimeout : Nat := 100
  /-- The most entries in one append request. -/
  maxBatch : Nat := 64
  /-- A log longer than this is compacted. -/
  compactionThreshold : Nat := 1000
  changeTimeout : Nat := 2000
  clientTimeout : Nat := 2000
  /-- How many leader hints a gateway follows. -/
  maxRedirects : Nat := 3
  /-- Where files are kept; nothing is kept in files without it. -/
  dataDir : Option String := none
deriving DecidableEq

namespace Settings

/-- The settings with `id` among the members, at the end if it is new. -/
def withMember (s : Settings) (id : Nat) : Settings :=
  if id ∈ s.members then s else { s with members := s.members ++ [id] }

/-- The settings with election timeouts between the two bounds. -/
def withElection (s : Settings) (least most : Nat) : Settings :=
  { s with electionMin := least, electionMax := most }

/-- The first reason why no progress is possible under the settings, if there is one. -/
def fault? (s : Settings) : Option SettingsFault :=
  if s.electionMin = 0 ∨ s.electionMax < s.electionMin then
    some (.electionRange s.electionMin s.electionMax)
  else if s.heartbeat = 0 ∨ s.electionMin ≤ s.heartbeat then
    some (.slowHeartbeat s.heartbeat s.electionMin)
  else if s.maxBatch = 0 then some .emptyBatches
  else if s.compactionThreshold = 0 then some .noCompactionThreshold
  else if s.members ≠ [] ∧ s.nodeId ∉ s.members then some (.missingSelf s.nodeId s.members)
  else none

/-- Refuse settings under which no progress is possible. -/
def validate (s : Settings) : Except Error Unit :=
  match s.fault? with
  | some fault => .error (.invalidSettings fault)
  | none => .ok ()

end Settings

end Consensus
