import Consensus.Node.Recovery
import Consensus.Proofs.Majority
import Consensus.Proofs.Node.Keeping
import Consensus.Proofs.Node.Peering
import Consensus.Proofs.Words

/-!
# A node on words

A running node counts in words, and the last word is followed by 0.  Before an event
the node has room if neither its term nor an index that it knows of, nor one that the
event brings, is near the last word.  Then the event does on words what it does when
nothing bounds terms and indices: every sum that a handler takes is a word.
-/

namespace Consensus

/-! ## Room -/

/-- The index that a request to a peer reached. -/
def BatchKind.reach : BatchKind → ℕ
  | .append prevIndex count => prevIndex + count
  | .snapshot index => index

/-- The index that a response names. -/
def Response.index : Response → ℕ
  | .appendEntries reply => reply.matchIndex
  | _ => 0

/-- No index in the request reaches the bound, and before the first entry of all there
is no term but zero. -/
structure AppendRequest.Below (bound : ℕ) (request : AppendRequest) : Prop where
  entries : ∀ entry ∈ request.entries, entry.index < bound
  reach : request.prevIndex + request.entries.length < bound
  origin : request.prevIndex = 0 → request.prevTerm = 0

instance {bound : ℕ} {request : AppendRequest} : Decidable (request.Below bound) :=
  decidable_of_iff ((∀ entry ∈ request.entries, entry.index < bound) ∧
      request.prevIndex + request.entries.length < bound ∧
      (request.prevIndex = 0 → request.prevTerm = 0))
    ⟨fun h => ⟨h.1, h.2.1, h.2.2⟩, fun h => ⟨h.entries, h.reach, h.origin⟩⟩

/-- No index that the event brings reaches the bound. -/
def Event.Below (bound : ℕ) : Event → Prop
  | .appendRequest _ request => request.Below bound
  | .installRequest _ request => request.lastIncludedIndex < bound
  | .replicationReply _ batch response =>
    batch.kind.reach < bound ∧ ∀ answer ∈ response, answer.index < bound
  | _ => True

instance {bound : ℕ} : (event : Event) → Decidable (event.Below bound)
  | .appendRequest _ request => inferInstanceAs (Decidable (request.Below bound))
  | .installRequest _ request =>
    inferInstanceAs (Decidable (request.lastIncludedIndex < bound))
  | .replicationReply _ batch response => inferInstanceAs (Decidable
    (batch.kind.reach < bound ∧ ∀ answer ∈ response, answer.index < bound))
  | .voteRequest _ _ => isTrue trivial
  | .command _ _ => isTrue trivial
  | .change _ _ => isTrue trivial
  | .voteReply _ _ _ => isTrue trivial
  | .campaign => isTrue trivial
  | .electionTimeout => isTrue trivial
  | .heartbeat => isTrue trivial

namespace Node

/-- No index that the node knows of reaches the bound. -/
structure Below {σ : Type} (bound : ℕ) (n : Node σ) : Prop where
  log : n.log.Below bound
  commit : n.standing.commitIndex < bound
  applied : n.standing.lastApplied < bound
  peers : n.peers.Every fun p => p.matchIndex < bound

/-- Whatever the node computes at the event is a word. -/
structure HasRoom {σ : Type} (event : Event) (n : Node σ) : Prop where
  term : event = .campaign ∨ event = .electionTimeout →
    n.standing.currentTerm + 1 < wordBound
  below : n.Below (wordBound - 2)
  event : event.Below (wordBound - 2)

variable {σ : Type} {n n' : Node σ} {bound : ℕ}

theorem below_of_values (h : n.log.Below bound ∧ n.standing.commitIndex < bound ∧
    n.standing.lastApplied < bound ∧ ∀ p ∈ n.peers.values, p.matchIndex < bound) :
    n.Below bound :=
  ⟨h.1, h.2.1, h.2.2.1, Table.every_of_values h.2.2.2⟩

theorem Below.of_same (h : n.Below bound) (hlog : n'.log = n.log)
    (hcommit : n'.standing.commitIndex = n.standing.commitIndex)
    (happlied : n'.standing.lastApplied = n.standing.lastApplied)
    (hpeers : n'.peers = n.peers) : n'.Below bound := by
  constructor
  · rw [hlog]
    exact h.log
  · rw [hcommit]
    exact h.commit
  · rw [happlied]
    exact h.applied
  · rw [hpeers]
    exact h.peers

theorem Below.mono (h : n.Below bound) {bound' : ℕ} (hle : bound ≤ bound') :
    n.Below bound' where
  log := h.log.mono hle
  commit := h.commit.trans_le hle
  applied := h.applied.trans_le hle
  peers id p hp := (h.peers id p hp).trans_le hle

theorem Below.afterRoleChange (h : n.Below bound) (before : Role) :
    (n.afterRoleChange before).Below bound := by
  unfold Node.afterRoleChange
  split
  · exact h
  · exact ⟨h.log, h.commit, h.applied, Table.every_empty⟩

theorem Below.syncPeers (h : n.Below bound) (targets : NodeSet) (lastIndex : ℕ) :
    (n.syncPeers targets (lastIndex + 1)).Below bound where
  log := h.log
  commit := h.commit
  applied := h.applied
  peers := every_syncPeers (fun _ => Nat.zero_lt_of_lt h.commit) h.peers targets lastIndex

theorem Below.becomeFollower (h : n.Below bound) (term : ℕ) :
    (n.mapStanding (·.becomeFollower term)).Below bound := by
  have hsame := sameIndices_becomeFollower n term
  exact h.of_same rfl hsame.commit hsame.applied rfl

theorem Below.recordReply (h : n.Below bound) (peer : ℕ) {change : Progress → Progress}
    (hchange : ∀ p : Progress, p.matchIndex < bound → (change p).matchIndex < bound) :
    (n.recordReply peer change).Below bound where
  log := h.log
  commit := h.commit
  applied := h.applied
  peers := h.peers.modify peer hchange

theorem Below.applyEntry (h : n.Below bound) (entry : Entry) {index : ℕ}
    (hindex : index < bound) : (n.applyEntry entry index).Below bound := by
  have henacted := enacted_applyEntry n entry index
  have hlog : (n.applyEntry entry index).log = n.log := congrArg Journal.log henacted.journal
  constructor
  · rw [hlog]
    exact h.log
  · rw [henacted.standing]
    exact h.commit
  · rw [henacted.standing]
    exact hindex
  · exact every_applyEntry (fun _ => Nat.zero_lt_of_lt h.commit) h.peers entry index

/-- The highest index that a majority holds is one that the node knows of. -/
theorem Below.majorityIndex_lt (h : n.Below bound) : n.majorityIndex < bound := by
  have hpos := Nat.zero_lt_of_lt h.commit
  refine Nat.lt_of_le_sub_one hpos (NodeSet.quorumMatch_le fun id => ?_)
  refine Nat.le_sub_one_of_lt ?_
  unfold matchIndex
  split
  · exact h.log.lastIndex_lt
  · cases hpeer : n.peers.get? id with
    | none => exact hpos
    | some p => exact h.peers id p hpeer

theorem Below.ensures_onJournal {act : Journal.Act σ Unit} (h : n.Below bound)
    (hact : Ensures act n.toJournal (fun _ j => j.log.Below bound) fun _ => True) :
    Ensures (onJournal act) n (fun _ m => m.Below bound) fun _ => True :=
  Ensures.onJournal (fun _ _ hrun => ⟨hact.ok hrun, h.commit, h.applied, h.peers⟩)
    fun _ _ _ => trivial

/-! ## Committing and applying -/

theorem adoptMembers_words (h : n.log.lastIndex + 1 < wordBound) (index : ℕ)
    (members : NodeSet) :
    @adoptMembers σ .words n index members = n.adoptMembers index members := by
  unfold adoptMembers
  dsimp only
  rw [Counting.words_plus h]
  rfl

theorem applyEntry_words (h : n.log.lastIndex + 1 < wordBound) (entry : Entry)
    (index : ℕ) : @applyEntry σ .words n entry index = n.applyEntry entry index := by
  have henact : @enact σ .words n entry index = n.enact entry index := by
    unfold enact
    split
    · rfl
    · rfl
    · exact adoptMembers_words h index _
  unfold applyEntry
  rw [henact]

variable [Storage σ]

theorem Below.ensures_persist (h : n.Below bound) :
    Ensures persist n (fun _ m => m.Below bound) fun _ => True := by
  unfold persist
  rw [Ensures.get_bind_iff]
  refine Ensures.ite (fun _ => ?_) fun _ => h
  refine Ensures.bind (Ensures.onDisk (fun _ _ _ => ?_) fun _ _ _ => trivial)
  exact h.of_same rfl rfl rfl rfl

theorem Below.ensures_stepDown (h : n.Below bound) (term : ℕ) :
    Ensures (stepDown term) n (fun _ m => m.Below bound) fun _ => True := by
  unfold stepDown
  exact (h.becomeFollower term).ensures_persist.andThen fun _ _ hm => hm.afterRoleChange _

theorem Below.ensures_compactIfLong (h : n.Below bound) :
    Ensures compactIfLong n (fun _ m => m.Below bound) fun _ => True := by
  unfold compactIfLong
  rw [Ensures.get_bind_iff]
  refine Ensures.ite (fun _ => h) fun _ => ?_
  cases n.log.termAt? n.standing.lastApplied with
  | none => trivial
  | some term =>
      refine Ensures.bind (Ensures.onDisk (fun _ disk _ => ?_) fun _ _ _ => trivial)
      have hdisk : { n with disk := disk }.Below bound := h.of_same rfl rfl rfl rfl
      exact hdisk.ensures_onJournal (Journal.below_compactTo hdisk.log h.applied term)

section

variable (hbound : bound < wordBound)
include hbound

theorem Below.concur_applyNext (h : n.Below bound)
    (hnext : n.standing.lastApplied + 1 < bound) :
    Concur (@applyNext σ _ .words) applyNext n fun _ m =>
      m.Below bound ∧ m.standing.lastApplied = n.standing.lastApplied + 1 := by
  have hlast := h.log.lastIndex_lt
  unfold applyNext
  refine Concur.get_bind ?_
  dsimp only
  cases n.log.get? (n.standing.lastApplied + 1) with
  | none => exact Concur.refl trivial
  | some entry =>
    dsimp only
    rw [applyEntry_words (by omega)]
    refine Concur.refl ?_
    have happlied := h.applyEntry entry hnext
    have hindex := (enacted_applyEntry n entry (n.standing.lastApplied + 1)).standing
    simp only [Ensures.set_bind_iff, Ensures.get_bind_iff]
    refine Ensures.ite (fun _ => ?_) fun _ => ⟨happlied, by rw [hindex]⟩
    -- a leader that applied its own removal steps down, and has applied as much as before
    let retired := (n.applyEntry entry (n.standing.lastApplied + 1)).mapStanding fun s =>
      { s with leader := none }
    have hretired : retired.Below bound := happlied.of_same rfl rfl rfl rfl
    refine ((hretired.ensures_stepDown _).and (abide_stepDown retired _)).mono ?_
      fun _ _ => trivial
    intro _ m hm
    obtain ⟨hm, habides⟩ := hm
    refine ⟨hm, habides.indices.applied.trans ?_⟩
    change (n.applyEntry entry (n.standing.lastApplied + 1)).standing.lastApplied = _
    rw [hindex]

theorem Below.concur_applyMany (h : n.Below bound) {count : ℕ}
    (hcount : n.standing.lastApplied + count < bound) :
    Concur (@applyMany σ _ .words count) (applyMany count) n fun _ m => m.Below bound := by
  induction count generalizing n with
  | zero => exact Concur.refl h
  | succ count ih =>
    refine Concur.bind (h.concur_applyNext hbound (by omega)) fun _ m hm => ?_
    obtain ⟨hm, hindex⟩ := hm
    exact ih hm (by omega)

theorem Below.concur_applyCommitted (h : n.Below bound) :
    Concur (@applyCommitted σ _ .words) applyCommitted n fun _ m => m.Below bound := by
  have happlied := h.applied
  have hcommit := h.commit
  unfold applyCommitted
  refine Concur.get_bind ?_
  refine Concur.bind (h.concur_applyMany hbound (by omega)) fun _ m hm => ?_
  have hannounced : (m.emit (.announce m.standing.lastApplied)).Below bound :=
    hm.of_same rfl rfl rfl rfl
  exact Concur.modify_bind rfl (Concur.refl hannounced.ensures_compactIfLong)

theorem Below.concur_advanceCommit (h : n.Below bound) :
    Concur (@advanceCommit σ _ .words) advanceCommit n fun _ m => m.Below bound := by
  unfold advanceCommit
  refine Concur.get_bind (Concur.ite (fun _ => Concur.refl h) fun _ => ?_)
  refine Concur.ite (fun _ => Concur.refl h) fun _ => ?_
  have hcommitted : (n.mapStanding fun s =>
      { s with commitIndex := n.majorityIndex }).Below bound :=
    ⟨h.log, h.majorityIndex_lt, h.applied, h.peers⟩
  exact Concur.set_bind (hcommitted.concur_applyCommitted hbound)

/-! ## Replicating -/

omit [Storage σ] in
theorem Below.appendRequest_words (h : n.Below bound) {prevIndex : ℕ}
    (hprev : prevIndex ≤ n.log.lastIndex) (prevTerm : ℕ) :
    @appendRequest σ .words n prevIndex prevTerm = n.appendRequest prevIndex prevTerm := by
  have hlast := h.log.lastIndex_lt
  have hboundary := h.log.boundary
  unfold appendRequest
  rw [Counting.words_plus (by omega), Log.entriesFrom_words (by omega) (by omega)]
  rfl

theorem Below.concur_replicateTo (h : n.Below bound) (peer : ℕ) :
    Concur (@replicateTo σ _ .words peer) (replicateTo peer) n
      fun _ m => m.Below bound := by
  have hlast := h.log.lastIndex_lt
  have hmarked : ∀ request kind, (n.dispatch peer request kind).Below bound :=
    fun request kind => ⟨h.log, h.commit, h.applied, h.peers.modify peer fun _ hp => hp⟩
  unfold replicateTo
  refine Concur.get_bind ?_
  cases n.peers.get? peer with
  | none => exact Concur.refl h
  | some progress =>
    refine Concur.ite (fun _ => Concur.refl h) fun _ => ?_
    refine Concur.ite (fun _ => Concur.refl ?_) fun hheld => ?_
    · refine Ensures.bind (Ensures.inspect (fun found _ => ?_) fun _ _ => trivial)
      cases found with
      | none => trivial
      | some snapshot => exact hmarked _ _
    · -- the leader holds the entry before the next one, so that 1 can be taken away
      dsimp only
      rw [Counting.words_plus (by omega), Counting.words_minus (by omega) (by omega),
        Counting.plus_eq, Counting.minus_eq]
      cases n.log.termAt? (min progress.nextIndex (n.log.lastIndex + 1) - 1) with
      | none => exact Concur.refl trivial
      | some prevTerm =>
        dsimp only
        rw [h.appendRequest_words hbound (by omega)]
        exact Concur.refl (hmarked _ _)

theorem Below.concur_replicateAll (h : n.Below bound) :
    Concur (@replicateAll σ _ .words) replicateAll n fun _ m => m.Below bound := by
  unfold replicateAll
  refine Concur.get_bind (Concur.ite (fun _ => Concur.refl h) fun _ => ?_)
  exact Concur.forM h fun peer _ hm => hm.concur_replicateTo hbound peer

theorem Below.concur_spread (h : n.Below bound) :
    Concur (@advanceCommit σ _ .words >>= fun _ => @replicateAll σ _ .words)
      (advanceCommit >>= fun _ => replicateAll) n fun _ m => m.Below bound :=
  Concur.bind (h.concur_advanceCommit hbound) fun _ _ hm => hm.concur_replicateAll hbound

theorem Below.concur_continueReplication (h : n.Below bound) (peer : ℕ) :
    Concur (@continueReplication σ _ .words peer) (continueReplication peer) n
      fun _ m => m.Below bound := by
  unfold continueReplication
  refine Concur.bind (h.concur_advanceCommit hbound) fun _ m hm => ?_
  refine Concur.get_bind (Concur.ite (fun _ => ?_) fun _ => Concur.refl hm)
  exact hm.concur_replicateTo hbound peer

/-- What a leader learns of a peer stays below the bound. -/
theorem Below.concur_learn (h : n.Below bound) (peer : ℕ)
    {change change' : Progress → Progress}
    (hsame : ∀ p : Progress, p.matchIndex < bound → change p = change' p)
    (hchange : ∀ p : Progress, p.matchIndex < bound → (change' p).matchIndex < bound) :
    Concur (modify (·.recordReply peer change) >>= fun _ =>
        @continueReplication σ _ .words peer)
      (modify (·.recordReply peer change') >>= fun _ => continueReplication peer) n
      fun _ m => m.Below bound := by
  refine Concur.modify_bind ?_ ((h.recordReply peer hchange).concur_continueReplication
    hbound peer)
  unfold Node.recordReply
  rw [Table.modify_congr fun p hp => hsame p (h.peers peer p hp)]

theorem Below.concur_replicationReply (h : n.Below bound) {batch : Batch}
    {response : Option Response} (hreach : batch.kind.reach < bound)
    (hresponse : ∀ answer ∈ response, answer.index < bound) (peer : ℕ) :
    Concur (@handleReplicationReply σ _ .words peer batch response)
      (handleReplicationReply peer batch response) n fun _ m => m.Below bound := by
  have hcleared : (n.recordReply peer fun p => { p with inFlight := false }).Below bound :=
    h.recordReply peer fun _ hp => hp
  have hsuccess : ∀ index < bound, ∀ p : Progress, p.matchIndex < bound →
      (p.recordSuccess index).matchIndex < bound :=
    fun index hindex p hp => max_lt hp hindex
  unfold handleReplicationReply
  refine Concur.get_bind (Concur.ite (fun _ => Concur.refl h) fun _ => ?_)
  refine Concur.modify_bind rfl ?_
  cases hkind : batch.kind with
  | append prevIndex count =>
    have hreach : prevIndex + count < bound := by
      rw [hkind] at hreach
      exact hreach
    cases response with
    | none => exact Concur.refl hcleared
    | some response =>
      cases response with
      | appendEntries reply =>
        have hhint : reply.matchIndex < bound := hresponse _ rfl
        refine Concur.ite (fun _ => Concur.refl (hcleared.ensures_stepDown _)) fun _ => ?_
        rw [Counting.words_plus (a := prevIndex) (b := count) (hreach.trans hbound)]
        refine hcleared.concur_learn hbound peer (fun p hp => ?_) fun p hp => ?_
        · rw [Progress.recordSuccess_words (by omega) (by omega),
            Progress.recordMismatch_words (by omega) (by omega)]
          rfl
        · split
          · exact hsuccess _ hreach p hp
          · exact hp
      | _ => exact Concur.refl hcleared
  | snapshot index =>
    have hreach : index < bound := by
      rw [hkind] at hreach
      exact hreach
    cases response with
    | none => exact Concur.refl hcleared
    | some response =>
      cases response with
      | installSnapshot reply =>
        refine Concur.ite (fun _ => Concur.refl (hcleared.ensures_stepDown _)) fun _ => ?_
        dsimp only
        refine Concur.ite (fun _ => ?_) fun _ =>
          hcleared.concur_continueReplication hbound peer
        exact hcleared.concur_learn hbound peer
          (fun p hp => Progress.recordSuccess_words (by omega) (by omega))
          (hsuccess index hreach)
      | _ => exact Concur.refl hcleared

end

end Node

end Consensus
