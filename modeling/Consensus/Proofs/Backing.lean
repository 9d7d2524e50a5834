import Consensus.Node.Effect
import Consensus.Proofs.Disk

/-!
# What a message vouches for

A message tells of something in the ledger: a vote request of a candidacy, an
append request of a leader's log, a positive reply of a vote or of entries that
are held.  Since the ledger only grows, a message that was true when it was
sent is true whenever it arrives, however late and however often.
-/

namespace Consensus

variable {S : Scope} {ℓ ℓ' : Ledger} {id : ℕ}

/-- The request speaks of a candidacy. -/
def VoteRequest.Backed (ℓ : Ledger) (request : VoteRequest) : Prop :=
  ∃ c, ℓ.candidacy request.candidate request.term = some c ∧
    request.lastLogIndex = c.log.length ∧
    request.lastLogTerm = lastTerm c.log

/-- The index of the last entry that a follower holds after the request. -/
def AppendRequest.reach (request : AppendRequest) : ℕ :=
  request.prevIndex + request.entries.length

/-- The request carries a piece of the log of the leader of its term, and a
commit index that this leader had reached. -/
structure AppendRequest.Backed (S : Scope) (ℓ : Ledger)
    (request : AppendRequest) : Prop where
  elected : ∃ e, ℓ.election request.term = some e
  reach_le : request.reach ≤ (ℓ.lead request.term).length
  entries : request.entries =
    ((ℓ.lead request.term).take request.reach).drop request.prevIndex
  prevTerm : termAt (ℓ.lead request.term) request.prevIndex =
    some request.prevTerm
  commit_le : request.leaderCommit ≤ (ℓ.lead request.term).length
  settled : ℓ.Settled S (request.term + 1)
    ((ℓ.lead request.term).take request.leaderCommit)
  pending : changes (((ℓ.lead request.term).take request.reach).drop
    request.leaderCommit) ≤ 1

/-- The snapshot that the request carries. -/
def InstallRequest.snapshot (request : InstallRequest) : Snapshot :=
  ⟨request.lastIncludedIndex, request.lastIncludedTerm, request.members,
    request.data⟩

/-- The request carries a snapshot of the log of the leader of its term, of
nothing but settled entries. -/
structure InstallRequest.Backed (S : Scope) (ℓ : Ledger)
    (request : InstallRequest) : Prop where
  elected : ∃ e, ℓ.election request.term = some e
  covers : request.snapshot.Covers S (ℓ.lead request.term)
  settled : ℓ.Settled S (request.term + 1)
    ((ℓ.lead request.term).take request.lastIncludedIndex)

/-- A request to a peer is backed, and its short form fits. -/
def Request.Backed (S : Scope) (ℓ : Ledger) (batch : Batch) : Request → Prop
  | .appendEntries request => request.Backed S ℓ ∧
      batch = ⟨request.term, .append request.prevIndex request.entries.length⟩
  | .installSnapshot request => request.Backed S ℓ ∧
      batch = ⟨request.term, .snapshot request.lastIncludedIndex⟩
  | _ => False

/-- A success says that what the request covered is held. -/
def Response.Backed (ℓ : Ledger) (id : ℕ) (batch : Batch)
    (response : Response) : Prop :=
  match batch.kind, response with
  | .append prevIndex count, .appendEntries reply =>
      reply.success = true → prevIndex + count ≤ ℓ.held id batch.term
  | .snapshot index, .installSnapshot reply =>
      reply.success = true → index ≤ ℓ.held id batch.term
  | _, _ => True

/-- How many entries the request stands for without carrying them. -/
def Request.covered : Request → ℕ
  | .installSnapshot request => request.lastIncludedIndex
  | _ => 0

/-- What a node says while it handles an event is backed, and by the first
`applied` entries where it stands for entries.  Answers to peers are not among
it; they come last. -/
def Effect.Backed (S : Scope) (ℓ : Ledger) (id applied : ℕ) : Effect → Prop
  | .requestVote _ request => request.candidate = id ∧ request.Backed ℓ
  | .dispatch _ request batch =>
      request.Backed S ℓ batch ∧ request.covered ≤ applied
  | .answer _ (.vote _) => False
  | .answer _ (.append _) => False
  | .answer _ (.install _) => False
  | _ => True

/-- The answer that a node gives to a peer in the end is backed. -/
def Answer.Backed (ℓ : Ledger) (id : ℕ) : Event → Answer → Prop
  | .voteRequest _ request, .vote reply =>
      reply.granted = true → ℓ.vote id request.term = some request.candidate
  | .appendRequest _ request, .append reply =>
      reply.success = true → request.reach ≤ ℓ.held id request.term
  | .installRequest _ request, .install reply =>
      reply.success = true →
        request.lastIncludedIndex ≤ ℓ.held id request.term
  | _, _ => False

/-- What a node is told is backed. -/
def Event.Backed (S : Scope) (ℓ : Ledger) (id : ℕ) : Event → Prop
  | .voteRequest _ request => request.Backed ℓ
  | .appendRequest _ request => request.Backed S ℓ
  | .installRequest _ request => request.Backed S ℓ
  | .change _ _ => ¬ S.fixed
  | .voteReply peer term reply =>
      reply.granted = true → ℓ.vote peer term = some id
  | .replicationReply peer batch (some response) =>
      response.Backed ℓ peer batch
  | _ => True

/-! ## What is backed stays backed -/

theorem VoteRequest.Backed.mono {request : VoteRequest}
    (h : request.Backed ℓ) (hgrows : ℓ.Grows ℓ') : request.Backed ℓ' := by
  obtain ⟨c, hc, hindex, hterm⟩ := h
  exact ⟨c, hgrows.candidacy _ _ c hc, hindex, hterm⟩

theorem AppendRequest.Backed.mono {request : AppendRequest}
    (h : request.Backed S ℓ) (hgrows : ℓ.Grows ℓ') : request.Backed S ℓ' := by
  have hlength := (hgrows.lead request.term).length_le
  have hreach := hgrows.take_lead h.reach_le
  have hprev : request.prevIndex ≤ (ℓ.lead request.term).length :=
    (Nat.le_add_right _ _).trans h.reach_le
  obtain ⟨e, he⟩ := h.elected
  refine ⟨⟨e, hgrows.election _ e he⟩, h.reach_le.trans hlength, ?_, ?_,
    h.commit_le.trans hlength, ?_, ?_⟩
  · rw [hreach]
    exact h.entries
  · rw [termAt_eq_of_isPrefix (hgrows.lead _) hprev]
    exact h.prevTerm
  · rw [hgrows.take_lead h.commit_le]
    exact h.settled.mono hgrows le_rfl
  · rw [hreach]
    exact h.pending

theorem InstallRequest.Backed.mono {request : InstallRequest}
    (h : request.Backed S ℓ) (hgrows : ℓ.Grows ℓ') : request.Backed S ℓ' := by
  obtain ⟨e, he⟩ := h.elected
  refine ⟨⟨e, hgrows.election _ e he⟩, ?_, ?_⟩
  · exact h.covers.of_take_isPrefix
      ((List.take_prefix _ _).trans (hgrows.lead _))
  · have hlength : request.lastIncludedIndex ≤ (ℓ.lead request.term).length :=
      h.covers.index_le
    rw [hgrows.take_lead hlength]
    exact h.settled.mono hgrows le_rfl

theorem Request.Backed.mono {batch : Batch} {request : Request}
    (h : request.Backed S ℓ batch) (hgrows : ℓ.Grows ℓ') :
    request.Backed S ℓ' batch := by
  cases request with
  | appendEntries request => exact ⟨h.1.mono hgrows, h.2⟩
  | installSnapshot request => exact ⟨h.1.mono hgrows, h.2⟩
  | _ => exact h

theorem Response.Backed.mono {batch : Batch} {response : Response}
    (h : response.Backed ℓ id batch) (hgrows : ℓ.Grows ℓ') :
    response.Backed ℓ' id batch := by
  have hheld := hgrows.held_le id batch.term
  revert h
  unfold Response.Backed
  split
  · exact fun h hsuccess => (h hsuccess).trans hheld
  · exact fun h hsuccess => (h hsuccess).trans hheld
  · exact fun h => h

theorem Effect.Backed.mono {effect : Effect} {applied applied' : ℕ}
    (h : effect.Backed S ℓ id applied) (hgrows : ℓ.Grows ℓ')
    (hle : applied ≤ applied') : effect.Backed S ℓ' id applied' := by
  cases effect with
  | requestVote peer request => exact ⟨h.1, h.2.mono hgrows⟩
  | dispatch peer request batch => exact ⟨h.1.mono hgrows, h.2.trans hle⟩
  | answer ticket answer =>
      cases answer with
      | vote reply => exact h
      | append reply => exact h
      | install reply => exact h
      | _ => trivial
  | _ => trivial

end Consensus
