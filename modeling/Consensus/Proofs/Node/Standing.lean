import Consensus.Standing
import Consensus.Proofs.Counting
import Mathlib.Order.Nat

/-!
# Terms and votes

What a message of some term does to where a node stands, apart from the node: a
newer term makes a follower, the leader of the term is followed, and a vote
request is answered by what the log and an earlier vote allow.
-/

namespace Consensus.Node

theorem becomeFollower_of_le {s : Standing} {term : ℕ}
    (h : term ≤ s.currentTerm) :
    s.becomeFollower term = { s with role := .follower, votes := ∅ } := by
  unfold Standing.becomeFollower
  rw [if_neg (not_lt.mpr h)]

theorem becomeFollower_of_lt {s : Standing} {term : ℕ}
    (h : s.currentTerm < term) :
    s.becomeFollower term =
      { s with
        currentTerm := term, votedFor := none, leader := none
        role := .follower, votes := ∅ } := by
  unfold Standing.becomeFollower
  rw [if_pos h]

theorem role_becomeFollower (s : Standing) (term : ℕ) :
    (s.becomeFollower term).role = .follower := by
  unfold Standing.becomeFollower
  split
  · rfl
  · rfl

theorem observeTerm_of_le {s : Standing} {term : ℕ} (h : term ≤ s.currentTerm) :
    s.observeTerm term = s := by
  unfold Standing.observeTerm
  rw [if_neg (not_lt.mpr h)]

theorem le_observeTerm (s : Standing) (term : ℕ) :
    term ≤ (s.observeTerm term).currentTerm := by
  unfold Standing.observeTerm
  split
  · next hlt => rw [becomeFollower_of_lt hlt]
  · next hle => exact not_lt.mp hle

theorem currentTerm_observeTerm {s : Standing} {term : ℕ}
    (h : s.currentTerm ≤ term) : (s.observeTerm term).currentTerm = term := by
  unfold Standing.observeTerm
  split
  · next hlt => rw [becomeFollower_of_lt hlt]
  · next hle => exact le_antisymm h (not_lt.mp hle)

theorem commitIndex_observeTerm (s : Standing) (term : ℕ) :
    (s.observeTerm term).commitIndex = s.commitIndex := by
  unfold Standing.observeTerm Standing.becomeFollower
  split
  · rfl
  · rfl

theorem lastApplied_observeTerm (s : Standing) (term : ℕ) :
    (s.observeTerm term).lastApplied = s.lastApplied := by
  unfold Standing.observeTerm Standing.becomeFollower
  split
  · rfl
  · rfl

theorem role_observeTerm {s : Standing} (h : s.role ≠ .leader) (term : ℕ) :
    (s.observeTerm term).role ≠ .leader := by
  unfold Standing.observeTerm Standing.becomeFollower
  split
  · exact fun hleads => absurd hleads (by simp)
  · exact h

/-- Whoever is no follower after it saw a term has seen no newer one. -/
theorem observeTerm_of_active {s : Standing} {term : ℕ}
    (h : (s.observeTerm term).role ≠ .follower) : s.observeTerm term = s := by
  unfold Standing.observeTerm at h ⊢
  split at h
  · exact absurd (role_becomeFollower s term) h
  next hle => exact if_neg hle

theorem role_observeTerm_cases (s : Standing) (term : ℕ) :
    (s.observeTerm term).role = s.role ∨ (s.observeTerm term).role = .follower := by
  by_cases hrole : (s.observeTerm term).role = .follower
  · exact Or.inr hrole
  · exact Or.inl (congrArg Standing.role (observeTerm_of_active hrole))

/-- A follower of the leader of its term. -/
def following (s : Standing) (term leader : ℕ) : Standing :=
  { (if s.role ≠ .follower then s.becomeFollower term else s) with
    leader := some leader }

theorem following_eq {s : Standing} {term : ℕ} (h : term ≤ s.currentTerm)
    (leader : ℕ) : ∃ votes, following s term leader =
      { s with role := .follower, leader := some leader, votes := votes } := by
  unfold following
  by_cases hrole : s.role = .follower
  · refine ⟨s.votes, ?_⟩
    rw [if_neg (not_not.mpr hrole), ← hrole]
  · refine ⟨∅, ?_⟩
    rw [if_pos hrole, becomeFollower_of_le h]

theorem role_following {s : Standing} {term : ℕ} (h : term ≤ s.currentTerm)
    (leader : ℕ) : (following s term leader).role = .follower := by
  obtain ⟨votes, heq⟩ := following_eq h leader
  rw [heq]

theorem hardState_following {s : Standing} {term : ℕ}
    (h : term ≤ s.currentTerm) (leader : ℕ) :
    (following s term leader).hardState = s.hardState := by
  obtain ⟨votes, heq⟩ := following_eq h leader
  rw [heq]
  rfl

/-- A vote request is refused or granted, and a vote that is granted is free
and goes to a log that is as complete as the own one. -/
theorem answerVote_cases (s : Standing) (log : Log) (request : VoteRequest) :
    ((s.answerVote log request).1.granted = false ∧
      (s.answerVote log request).2 = s.observeTerm request.term) ∨
    ((s.answerVote log request).1.granted = true ∧
      (s.answerVote log request).2 = { s.observeTerm request.term with
        votedFor := some request.candidate } ∧
      (s.observeTerm request.term).currentTerm ≤ request.term ∧
      (∀ c, (s.observeTerm request.term).votedFor = some c →
        c = request.candidate) ∧
      log.isUpToDate request.lastLogIndex request.lastLogTerm = true) := by
  unfold Standing.answerVote
  dsimp only
  split
  · exact Or.inl ⟨rfl, rfl⟩
  next hterm =>
    split
    · exact Or.inl ⟨rfl, rfl⟩
    next hfree =>
      split
      · next hfresh =>
        refine Or.inr ⟨rfl, rfl, not_lt.mp hterm, fun c hc => ?_, hfresh⟩
        by_contra hne
        refine hfree ⟨by rw [hc]; rfl, ?_⟩
        rw [hc]
        exact fun heq => hne (Option.some.inj heq)
      · exact Or.inl ⟨rfl, rfl⟩

/-- An answer to a vote request moves nothing but term and vote, and what goes with a
newer term. -/
theorem answerVote_eq (s : Standing) (log : Log) (request : VoteRequest) :
    ∃ vote, (s.answerVote log request).2 =
      { s.observeTerm request.term with votedFor := vote } := by
  rcases answerVote_cases s log request with ⟨-, hstanding⟩ | ⟨-, hstanding, -⟩
  · exact ⟨_, hstanding⟩
  · exact ⟨_, hstanding⟩

end Consensus.Node
