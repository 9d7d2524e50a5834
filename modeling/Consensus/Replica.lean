import Consensus.Journal
import Consensus.Standing

/-!
# A replica follows a leader

A replica is a journal together with where the node stands. It answers append requests: an
older term is refused, a log that does not hold the leader's previous entry is refused with a
hint, and everything else is taken over, whereupon the commit index follows the leader's as far
as the entries sent reach.
-/

namespace Consensus

/-- A journal and where its node stands. -/
structure Replica (σ : Type) extends Journal σ where
  standing : Standing

namespace Replica

variable {σ : Type} [Storage σ]

/-- A computation on a replica. -/
abbrev Act (σ : Type) := EStateM Error (Replica σ)

/-- Do something to the journal only. -/
def onJournal {α : Type} (act : Journal.Act σ α) : Act σ α :=
  onPart Replica.toJournal (fun j r => { r with toJournal := j }) act

/-- Change where the node stands. -/
def modifyStanding (change : Standing → Standing) : Act σ Unit :=
  modify fun r => { r with standing := change r.standing }

/-- Accept the sender of an append request as the leader of the current term. -/
def acceptLeader (s : Standing) (request : AppendRequest) : Standing :=
  let s := if s.role ≠ .follower then s.becomeFollower request.term else s
  { s with leader := some request.leader }

/-- Raise the commit index to the leader's, but not beyond the last entry sent. -/
def followCommit (s : Standing) (leaderCommit lastSent : Nat) : Standing :=
  { s with commitIndex := max s.commitIndex (min leaderCommit lastSent) }

/-- Answer an append request. -/
def answerAppend [Counting] (request : AppendRequest) : Act σ AppendReply := do
  modifyStanding (·.observeTerm request.term)
  let r ← get
  if request.term < r.standing.currentTerm then
    return ⟨r.standing.currentTerm, false, r.log.lastIndex⟩
  modifyStanding (acceptLeader · request)
  if !r.log.matchesAt request.prevIndex request.prevTerm then
    return ⟨r.standing.currentTerm, false, r.log.conflictHint request.prevIndex⟩
  let lastSent ← onJournal (Journal.appendFromLeader request.prevIndex request.entries)
  modifyStanding (followCommit · request.leaderCommit lastSent)
  return ⟨r.standing.currentTerm, true, lastSent⟩

end Replica

end Consensus
