import Consensus.Log
import Consensus.Storage

/-!
# Where a node stands

Term, vote, role, and how far the log is committed and applied. The term never falls, short of
the end of the words; a vote is given at most once per term; a message of a newer term makes
any node a follower of it.
-/

namespace Consensus

/-- The role of a node. -/
inductive Role where
  | follower
  | candidate
  | leader
deriving DecidableEq

/-- The role in a word. -/
def Role.name : Role → String
  | .follower => "follower"
  | .candidate => "candidate"
  | .leader => "leader"

/-- Where one node stands. -/
structure Standing where
  currentTerm : Nat := 0
  votedFor : Option Nat := none
  commitIndex : Nat := 0
  lastApplied : Nat := 0
  role : Role := .follower
  /-- The leader of the current term, once known. -/
  leader : Option Nat := none
  /-- The votes received, while a candidate. -/
  votes : NodeSet := ∅
deriving DecidableEq

namespace Standing

/-- Where a node stands after a stop: a follower that has applied what its consumer holds. -/
def restore (hard : HardState) (applied : Nat) : Standing :=
  { currentTerm := hard.currentTerm, votedFor := hard.votedFor, commitIndex := applied,
    lastApplied := applied }

/-- The part that has to survive a stop. -/
def hardState (s : Standing) : HardState := ⟨s.currentTerm, s.votedFor⟩

/-- Become a follower. Only a newer term forgets the vote and the leader; a candidate that
finds the leader of its own term keeps the vote for itself. -/
def becomeFollower (s : Standing) (term : Nat) : Standing :=
  if s.currentTerm < term then
    { s with currentTerm := term, votedFor := none, leader := none, role := .follower, votes := ∅ }
  else { s with role := .follower, votes := ∅ }

/-- Follow a newer term; an older or equal one changes nothing. -/
def observeTerm (s : Standing) (term : Nat) : Standing :=
  if s.currentTerm < term then s.becomeFollower term else s

/-- Open an election of the next term with a vote for oneself. -/
def becomeCandidate [Counting] (s : Standing) (self : Nat) : Standing :=
  { s with
    role := .candidate
    currentTerm := Counting.nextTerm s.currentTerm
    votedFor := some self
    votes := (∅ : NodeSet).insert self
    leader := none }

/-- Lead the current term. -/
def becomeLeader (s : Standing) (self : Nat) : Standing :=
  { s with role := .leader, leader := some self, votes := ∅ }

/-- Answer a vote request, the own log being `log`. The vote is refused to an older term, to a
second candidate of the same term, and to a candidate whose log is less complete. -/
def answerVote (s : Standing) (log : Log) (request : VoteRequest) : VoteReply × Standing :=
  let s := s.observeTerm request.term
  if request.term < s.currentTerm then (⟨s.currentTerm, false⟩, s)
  else if s.votedFor.isSome ∧ s.votedFor ≠ some request.candidate then
    (⟨s.currentTerm, false⟩, s)
  else if log.isUpToDate request.lastLogIndex request.lastLogTerm then
    (⟨s.currentTerm, true⟩, { s with votedFor := some request.candidate })
  else (⟨s.currentTerm, false⟩, s)

end Standing

end Consensus
