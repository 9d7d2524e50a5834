import Consensus.Proofs.Compaction
import Consensus.Proofs.Merging
import Consensus.Proofs.Node.Standing

/-!
# Requests that are delivered twice

A request that arrives again right after it was handled gets the same answer and
changes nothing, whatever the answer is.  What handling it does to the term, the vote,
the role and the log is done already, and none of it makes a difference to how the
request is judged: a refusal is repeated, a vote is confirmed to the same candidate,
and entries that were taken over are all held.
-/

namespace Consensus

/-! ## Vote requests -/

namespace Standing

theorem observeTerm_observeTerm (s : Standing) (term : ℕ) :
    (s.observeTerm term).observeTerm term = s.observeTerm term :=
  Node.observeTerm_of_le (Node.le_observeTerm s term)

/-- The answer is given in the term in which the node then is. -/
theorem term_answerVote (s : Standing) (log : Log) (request : VoteRequest) :
    (s.answerVote log request).1.term = (s.answerVote log request).2.currentTerm := by
  unfold answerVote
  dsimp only
  split_ifs <;> rfl

theorem answerVote_observeTerm (s : Standing) (log : Log) (request : VoteRequest) :
    (s.observeTerm request.term).answerVote log request = s.answerVote log request := by
  unfold answerVote
  rw [observeTerm_observeTerm]

/-- A vote that was given is given to the same candidate again. -/
theorem answerVote_of_voted {s : Standing} {log : Log} {request : VoteRequest}
    (hterm : request.term = s.currentTerm) (hvoted : s.votedFor = some request.candidate)
    (hfresh : log.isUpToDate request.lastLogIndex request.lastLogTerm = true) :
    s.answerVote log request = (⟨s.currentTerm, true⟩, s) := by
  unfold answerVote
  dsimp only
  rw [Node.observeTerm_of_le hterm.le, if_neg hterm.not_lt,
    if_neg fun hother => hother.2 hvoted, if_pos hfresh, ← hvoted]

/-- A vote request that comes again is answered as before, and changes nothing. -/
theorem answerVote_again (s : Standing) (log : Log) (request : VoteRequest) :
    (s.answerVote log request).2.answerVote log request = s.answerVote log request := by
  rcases Node.answerVote_cases s log request with
    ⟨-, hkept⟩ | ⟨hgranted, hvoted, hle, -, hfresh⟩
  · rw [hkept, answerVote_observeTerm]
  · have hterm := (Node.le_observeTerm s request.term).antisymm hle
    have hagain := answerVote_of_voted (s := (s.answerVote log request).2)
      (by rw [hvoted]; exact hterm) (by rw [hvoted]) hfresh
    refine hagain.trans (Prod.ext ?_ rfl)
    change VoteReply.mk _ _ = _
    rw [← term_answerVote, ← hgranted]

end Standing

namespace Replica

variable {σ : Type} [Storage σ] {Holds : σ → Stored → Prop} {Writable : ℕ → Prop}
  {stored : Stored} {r : Replica σ} {s : Standing} {request : AppendRequest}

/-! ## Append requests -/

/-- The sender of the request is followed as the leader of the request's term. -/
structure Heeds (request : AppendRequest) (s : Standing) : Prop where
  term : s.currentTerm = request.term
  role : s.role = .follower
  leader : s.leader = some request.leader

namespace Heeds

theorem not_stale (h : Heeds request s) :
    ¬ request.term < (s.observeTerm request.term).currentTerm := by
  rw [Node.observeTerm_of_le h.term.ge, h.term]
  exact lt_irrefl _

theorem observeTerm (h : Heeds request s) : s.observeTerm request.term = s :=
  Node.observeTerm_of_le h.term.ge

theorem acceptLeader (h : Heeds request s) : acceptLeader s request = s := by
  unfold Replica.acceptLeader
  dsimp only
  rw [if_neg (not_not.mpr h.role), ← h.leader]

theorem followCommit (h : Heeds request s) (leaderCommit reach : ℕ) :
    Heeds request (followCommit s leaderCommit reach) :=
  ⟨h.term, h.role, h.leader⟩

end Heeds

theorem currentTerm_of_not_stale
    (hcurrent : ¬ request.term < (s.observeTerm request.term).currentTerm) :
    (s.observeTerm request.term).currentTerm = request.term :=
  (not_lt.mp hcurrent).antisymm (Node.le_observeTerm s request.term)

/-- A request that is not stale makes its sender the leader. -/
theorem heeds_acceptLeader
    (hcurrent : ¬ request.term < (s.observeTerm request.term).currentTerm) :
    Heeds request (acceptLeader (s.observeTerm request.term) request) := by
  have hterm := currentTerm_of_not_stale hcurrent
  generalize s.observeTerm request.term = s at hterm
  unfold acceptLeader
  dsimp only
  rw [Node.becomeFollower_of_le hterm.ge]
  by_cases hrole : s.role = .follower
  · rw [if_neg (not_not.mpr hrole)]
    exact ⟨hterm, hrole, rfl⟩
  · rw [if_pos hrole]
    exact ⟨hterm, rfl, rfl⟩

theorem followCommit_followCommit (s : Standing) (leaderCommit reach : ℕ) :
    followCommit (followCommit s leaderCommit reach) leaderCommit reach =
      followCommit s leaderCommit reach := by
  unfold followCommit
  dsimp only
  rw [max_assoc, max_self]

/-- When the request is handled again, the answer is the same and nothing changes. -/
def Repeats (request : AppendRequest) (reply : AppendReply) (after : Replica σ) : Prop :=
  answerAppend request after = .ok reply after

/-- A request of an older term is refused again. -/
theorem repeats_of_stale
    (hstale : request.term < (r.standing.observeTerm request.term).currentTerm) :
    Ensures (answerAppend request) r (Repeats request) fun _ => False := by
  refine (answerAppend_of_stale hstale).imp ?_
  rintro - - ⟨rfl, rfl⟩
  have hsettled := r.standing.observeTerm_observeTerm request.term
  have hagain := answerAppend_of_stale
    (r := { r with standing := r.standing.observeTerm request.term })
    (hsettled.symm ▸ hstale)
  rw [hsettled] at hagain
  exact hagain.eq_ok

/-- A request that did not fit does not fit the second time either. -/
theorem repeats_of_mismatch
    (hcurrent : ¬ request.term < (r.standing.observeTerm request.term).currentTerm)
    (hmatches : r.log.matchesAt request.prevIndex request.prevTerm = false) :
    Ensures (answerAppend request) r (Repeats request) fun _ => False := by
  refine (answerAppend_of_mismatch hcurrent hmatches).imp ?_
  rintro - - ⟨rfl, rfl⟩
  have hheeds := heeds_acceptLeader hcurrent
  have hagain := answerAppend_of_mismatch
    (r := { r with
      standing := acceptLeader (r.standing.observeTerm request.term) request })
    hheeds.not_stale hmatches
  rw [hheeds.observeTerm, hheeds.acceptLeader, hheeds.term] at hagain
  rw [currentTerm_of_not_stale hcurrent]
  exact hagain.eq_ok

/-- Entries that were taken over are held when they come again. -/
theorem repeats_of_match (hretains : Storage.Retains Holds Writable False)
    (hkeeps : r.toJournal.Keeps Holds stored) (hgapless : r.log.Gapless)
    (hnumbered : NumberedFrom request.prevIndex request.entries)
    (hfits : ∀ entry ∈ request.entries, entry.Fits Writable)
    (hcurrent : ¬ request.term < (r.standing.observeTerm request.term).currentTerm)
    (hmatches : r.log.matchesAt request.prevIndex request.prevTerm = true) :
    Ensures (answerAppend request) r (Repeats request) fun _ => False := by
  obtain ⟨kept, early, fresh, hmeets⟩ :=
    hgapless.exists_meets hnumbered (hgapless.le_last_of_matchesAt hmatches)
  have htaken : Ensures (Journal.appendFromLeader request.prevIndex request.entries)
      r.toJournal _ _ :=
    hkeeps.appendFromLeader hretains hgapless hmeets.adjoins
      (hmeets.merge.imp_right fun h => ⟨h.1, h.2.1⟩) fun entry hentry =>
        hfits entry (hmeets.split ▸ List.mem_append_right _ hentry)
  refine (answerAppend_of_match hcurrent hmatches htaken).imp ?_
  rintro - after ⟨reach, rfl, hstanding, rfl, hlog, -⟩
  have hheeds : Heeds request after.standing :=
    hstanding ▸ (heeds_acceptLeader hcurrent).followCommit _ _
  have hsettled : followCommit after.standing request.leaderCommit
      (request.prevIndex + request.entries.length) = after.standing := by
    rw [hstanding, followCommit_followCommit]
  have hmatches' : after.log.matchesAt request.prevIndex request.prevTerm = true := by
    unfold Log.matchesAt at hmatches ⊢
    rw [hlog, hgapless.termAt?_splice hmeets.adjoins.le_last hmeets.prev_le]
    exact hmatches
  have hmerge : after.log.merge request.entries = ⟨none, []⟩ :=
    Log.merge_of_held fun entry hentry hlt => by
      rw [hlog] at hlt ⊢
      exact hmeets.held_splice hgapless hentry hlt
  have hheld : Ensures (Journal.appendFromLeader request.prevIndex request.entries)
      after.toJournal _ fun _ => False := Journal.appendFromLeader_of_merge hmerge
  have hagain := answerAppend_of_match hheeds.not_stale hmatches' hheld
  rw [hheeds.observeTerm, hheeds.acceptLeader, hheeds.term] at hagain
  rw [currentTerm_of_not_stale hcurrent]
  refine (hagain.imp ?_).eq_ok
  rintro reply after' ⟨-, rfl, hstanding', rfl, hjournal⟩
  rw [hsettled] at hstanding'
  exact ⟨rfl, congrArg₂ Replica.mk hjournal hstanding'⟩

/-- On a disk without faults, a request for a vote or to append that comes again right
after it was handled is answered as the first time and changes nothing: neither where
the node stands, nor its log, nor its disk. -/
theorem redelivery_repeats (hretains : Storage.Retains Holds Writable False)
    (hkeeps : r.toJournal.Keeps Holds stored) (hgapless : r.log.Gapless) :
    (∀ request : VoteRequest,
      (r.standing.answerVote r.log request).2.answerVote r.log request =
        r.standing.answerVote r.log request) ∧
    ∀ request : AppendRequest, NumberedFrom request.prevIndex request.entries →
      (∀ entry ∈ request.entries, entry.Fits Writable) →
      Ensures (answerAppend request) r (Repeats request) fun _ => False := by
  refine ⟨fun request => r.standing.answerVote_again r.log request,
    fun request hnumbered hfits => ?_⟩
  by_cases hstale : request.term < (r.standing.observeTerm request.term).currentTerm
  · exact repeats_of_stale hstale
  · cases hmatches : r.log.matchesAt request.prevIndex request.prevTerm with
    | false => exact repeats_of_mismatch hstale hmatches
    | true => exact repeats_of_match hretains hkeeps hgapless hnumbered hfits hstale hmatches

/-- A candidate of the first term whose log a leader of the second one overrules. -/
def overruled : Replica Memory where
  toJournal := Journal.trailing
  standing := { currentTerm := 1, votedFor := some 1, commitIndex := 2, role := .candidate }

/-- What the leader of the second term sends. -/
def overrulingRequest : AppendRequest := ⟨2, 3, 1, 1, Journal.overruling, 5⟩

/-- The case of a log that gives way, and of a vote in a newer term. -/
theorem redelivery_repeats_overruled :
    (∃ after, answerAppend overrulingRequest overruled = .ok ⟨2, true, 6⟩ after ∧
      answerAppend overrulingRequest after = .ok ⟨2, true, 6⟩ after) ∧
    ∃ after, overruled.standing.answerVote overruled.log ⟨3, 2, 5, 1⟩ = (⟨3, true⟩, after) ∧
      after.answerVote overruled.log ⟨3, 2, 5, 1⟩ = (⟨3, true⟩, after) := by
  have hretains : Storage.Retains Memory.Retaining (fun _ => True) False := retains_clean
  have hkeeps : Journal.trailing.Keeps Memory.Retaining Journal.trailing.disk.stored :=
    ⟨⟨rfl, rfl⟩, rfl⟩
  have hgapless : Journal.trailing.log.Gapless :=
    .cons rfl (.cons rfl (.cons rfl (.nil 5)))
  have hnumbered : NumberedFrom 1 Journal.overruling :=
    .cons rfl (.cons rfl (.cons rfl (.cons rfl (.cons rfl (.nil 6)))))
  have hfits : ∀ entry ∈ Journal.overruling, entry.Fits fun _ => True := fun entry _ =>
    entry.fits_of_all fun _ => trivial
  obtain ⟨hvote, happend⟩ := redelivery_repeats (r := overruled) hretains hkeeps hgapless
  refine ⟨⟨_, rfl, (happend overrulingRequest hnumbered hfits).ok rfl⟩, _, rfl, ?_⟩
  exact hvote ⟨3, 2, 5, 1⟩

end Replica

end Consensus
