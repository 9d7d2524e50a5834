import Consensus.Node.Replication
import Consensus.Proofs.Node.Applying

/-!
# Replication is sound

A leader sends pieces of its own log, or the snapshot that its log starts from,
and a positive reply tells it what the peer now holds.  A leader whose entry
before the next one is compacted has the snapshot to send instead, so that it
never gets stuck.
-/

namespace Consensus.Node

variable {S : Scope} {ℓ : Ledger} {id peer : ℕ} {n n' : Node Memory}

/-! ## Sending -/

theorem quiet_dispatch {request : Request} {kind : BatchKind}
    (h : request.Backed S ℓ ⟨n.standing.currentTerm, kind⟩)
    (hcovered : request.covered ≤ n.standing.lastApplied) :
    Quiet S ℓ id n (n.dispatch peer request kind) := by
  have hemit : Quiet S ℓ id n (n.emit
      (.dispatch peer request ⟨n.standing.currentTerm, kind⟩)) :=
    quiet_emit ⟨h, hcovered⟩
  have hmark : Quiet S ℓ id
      (n.emit (.dispatch peer request ⟨n.standing.currentTerm, kind⟩))
      (n.dispatch peer request kind) :=
    quiet_modifyPeer fun p hp => ⟨hp.matchIndex_le, hp.nextIndex_pos⟩
  exact hemit.trans hmark

/-- A piece of the leader's own log. -/
theorem Tracks.backed_appendRequest (h : Tracks S ℓ id n)
    (hrole : n.standing.role = .leader) {prevIndex prevTerm : ℕ}
    (hboundary : n.log.snapshotIndex ≤ prevIndex)
    (hlength : prevIndex ≤ (ℓ.log id).length)
    (hterm : termAt (ℓ.log id) prevIndex = some prevTerm) :
    (n.appendRequest prevIndex prevTerm).Backed S ℓ := by
  have hleader := h.leader hrole
  have hlead : ℓ.lead (n.appendRequest prevIndex prevTerm).term = ℓ.log id := by
    change ℓ.lead n.standing.currentTerm = ℓ.log id
    rw [h.term, hleader.lead]
  obtain ⟨e, he, -⟩ := hleader.elected
  have hentries : (n.appendRequest prevIndex prevTerm).entries =
      ((ℓ.log id).drop prevIndex).take n.settings.maxBatch :=
    h.journal.log.entriesFrom_eq _ (Nat.lt_succ_of_le hboundary)
  have hcount : (n.appendRequest prevIndex prevTerm).entries.length ≤
      (ℓ.log id).length - prevIndex := by
    rw [hentries, List.length_take, List.length_drop]
    exact min_le_right _ _
  refine ⟨⟨e, ?_⟩, ?_, ?_, ?_, ?_, ?_, ?_⟩
  · change ℓ.election n.standing.currentTerm = some e
    rw [h.term, he]
  · rw [hlead, AppendRequest.reach]
    change prevIndex + _ ≤ _
    omega
  · rw [hlead, AppendRequest.reach]
    change _ = ((ℓ.log id).take (prevIndex + _)).drop prevIndex
    rw [List.drop_take, Nat.add_sub_cancel_left, hentries]
    exact (take_length_of_isPrefix (List.take_prefix _ _)).symm
  · rw [hlead]
    exact hterm
  · rw [hlead]
    exact h.commit_le
  · rw [hlead]
    change ℓ.Settled S (n.standing.currentTerm + 1) _
    rw [h.term]
    exact h.settled
  · rw [hlead]
    exact (changes_drop_le_of_isPrefix (List.take_prefix _ _)).trans h.pending

/-- What a snapshot covers was applied. -/
theorem Tracks.snapshot_le (h : Tracks S ℓ id n) {snapshot : Snapshot}
    (hsnapshot : n.disk.snapshot = some snapshot) :
    snapshot.index ≤ n.standing.lastApplied := by
  have hboundary := h.journal.boundary
  rw [Memory.boundary, hsnapshot] at hboundary
  exact hboundary.le.trans h.boundary_le

/-- The snapshot that the leader's own log starts from. -/
theorem Tracks.backed_installRequest (h : Tracks S ℓ id n)
    (hrole : n.standing.role = .leader) {snapshot : Snapshot}
    (hsnapshot : n.disk.snapshot = some snapshot) :
    (n.installRequest snapshot).Backed S ℓ := by
  have hleader := h.leader hrole
  have hlead : ℓ.lead (n.installRequest snapshot).term = ℓ.log id := by
    change ℓ.lead n.standing.currentTerm = ℓ.log id
    rw [h.term, hleader.lead]
  have hindex := h.snapshot_le hsnapshot
  obtain ⟨e, he, -⟩ := hleader.elected
  refine ⟨⟨e, ?_⟩, ?_, ?_⟩
  · change ℓ.election n.standing.currentTerm = some e
    rw [h.term, he]
  · rw [hlead]
    exact h.journal.disk.snapshot snapshot hsnapshot
  · rw [hlead]
    change ℓ.Settled S (n.standing.currentTerm + 1) _
    rw [h.term]
    exact h.applied_settled.of_isPrefix (List.take_prefix_take_left hindex)

theorem Tracks.replicateTo (h : Tracks S ℓ id n) (hall : Numbered (ℓ.log id))
    (hrole : n.standing.role = .leader) :
    Ensures (Node.replicateTo peer) n (fun _ n' => Quiet S ℓ id n n')
      fun _ => False := by
  have hlast := h.journal.log.lastIndex_eq hall
  have hboundary := h.boundary_le_length
  unfold Node.replicateTo
  simp only [Ensures.get_bind_iff, Counting.plus_eq, Counting.minus_eq]
  cases hpeer : n.peers.get? peer with
  | none => exact Quiet.refl n
  | some progress =>
      have hnext := ((h.leader hrole).peers peer progress hpeer).nextIndex_pos
      refine Ensures.ite (fun _ => Quiet.refl n) fun _ => ?_
      refine Ensures.ite (fun hcompacted => ?_) fun hheld => ?_
      · refine Ensures.bind_of_ok (onDisk_ok (a := n.disk.snapshot) rfl) ?_
        cases hsnapshot : n.disk.snapshot with
        | none =>
            -- without a snapshot nothing is compacted
            have hzero := h.journal.boundary
            rw [Memory.boundary, hsnapshot] at hzero
            change 0 = n.log.snapshotIndex at hzero
            omega
        | some snapshot =>
            dsimp only
            rw [Ensures.modify_iff]
            exact quiet_dispatch
              ⟨h.backed_installRequest hrole hsnapshot, rfl⟩
              (h.snapshot_le hsnapshot)
      · have hprev : n.log.snapshotIndex ≤
            min progress.nextIndex (n.log.lastIndex + 1) - 1 := by
          omega
        have hlength : min progress.nextIndex (n.log.lastIndex + 1) - 1 ≤
            (ℓ.log id).length := by
          omega
        rw [h.journal.log.termAt?_of_le hprev]
        obtain ⟨prevTerm, hterm⟩ :=
          Option.isSome_iff_exists.mp (termAt_isSome_iff.mpr hlength)
        rw [hterm]
        dsimp only
        rw [Ensures.modify_iff]
        exact quiet_dispatch
          ⟨h.backed_appendRequest hrole hprev hlength hterm, rfl⟩
          (Nat.zero_le _)

theorem Tracks.replicateAll (h : Tracks S ℓ id n)
    (hall : Numbered (ℓ.log id)) :
    Ensures Node.replicateAll n (fun _ n' => Quiet S ℓ id n n')
      fun _ => False := by
  unfold Node.replicateAll
  simp only [Ensures.get_bind_iff]
  refine Ensures.ite (fun _ => Quiet.refl n) fun hrole => ?_
  refine Ensures.forM (Quiet.refl n) fun peer m hm => ?_
  refine ((h.quiet hm).replicateTo hall ?_).imp (fun _ m' hm' => hm.trans hm')
  rw [hm.standing]
  exact not_not.mp hrole

/-! ## Going on, or stepping down -/

theorem Ready.stepDown (h : Ready S ℓ id n) (hsound : ℓ.Sound S) {term : ℕ}
    (hlt : n.standing.currentTerm < term) :
    Ensures (Node.stepDown term) n
      (fun _ n' => Rests S (ℓ.observe id term) id n.settings
        n.standing.commitIndex n.log.snapshotIndex n')
      fun _ => False := by
  have hobserve : n.standing.observeTerm term =
      n.standing.becomeFollower term := by
    unfold Standing.observeTerm
    rw [if_pos hlt]
  have hcommit : (n.standing.becomeFollower term).commitIndex =
      n.standing.commitIndex :=
    hobserve ▸ commitIndex_observeTerm n.standing term
  have happlied : (n.standing.becomeFollower term).lastApplied =
      n.standing.lastApplied :=
    hobserve ▸ lastApplied_observeTerm n.standing term
  have htracks := h.tracks.observeTerm hsound term
  unfold Node.mapStanding at htracks
  simp only [hobserve] at htracks
  have hready : Ready S (ℓ.observe id term) id
      (n.mapStanding (·.becomeFollower term)).stored :=
    ⟨htracks.stored, (happlied.trans h.settled.applied).trans hcommit.symm, rfl⟩
  have hrests : Rests S (ℓ.observe id term) id n.settings
      n.standing.commitIndex n.log.snapshotIndex
      (n.mapStanding (·.becomeFollower term)).stored :=
    ⟨hready, rfl, hcommit, fun _ => rfl⟩
  unfold Node.stepDown
  simp only [Ensures.get_bind_iff, Ensures.modify_bind_iff]
  refine Ensures.bind_of_ok (Tracks.persist_eq htracks) ?_
  rw [Ensures.modify_iff]
  exact hrests.quiet (quiet_afterRoleChange _)

/-- A leader that learned something goes on. -/
theorem Ready.continueReplication (h : Ready S ℓ id n)
    (hall : Numbered (ℓ.log id)) (hrole : n.standing.role = .leader) :
    Ensures (Node.continueReplication peer) n
      (fun _ n' => Rests S ℓ id n.settings
        (commitReached ℓ id n.membership.committed n.peers
          n.standing.commitIndex) n.log.snapshotIndex n')
      fun _ => False := by
  unfold Node.continueReplication
  refine (h.advanceCommit hall hrole).andThen ?_
  rintro - n' hn'
  simp only [Ensures.get_bind_iff]
  refine Ensures.ite (fun hbehind => ?_) fun _ => hn'
  exact (hn'.tracks.replicateTo hall hbehind.2).mono
    (fun _ n'' hquiet => hn'.quiet hquiet) fun _ he => he

/-! ## Handling -/

/-- Nothing happened that the ledger has to know. -/
theorem handled_of_rests {act : Act Memory Unit} {boundary : ℕ} {fails : Prop}
    (commit : ℕ) (hsound : ℓ.Sound S)
    (h : ∀ threshold, Ensures act (n.withThreshold threshold)
      (fun _ n' => Rests S ℓ id (n.withThreshold threshold).settings commit
        boundary n') fun _ => False) :
    Handled S ℓ id n act boundary (fun _ _ => True) fails :=
  ⟨ℓ, commit, Ledger.Moves.refl id ℓ, hsound, fun threshold =>
    (h threshold).mono (fun _ _ hn' => ⟨hn', trivial⟩) fun _ he => he.elim⟩

/-- One computation comes down to another one, from a different node and
perhaps a later ledger. -/
theorem Handled.of_reduction {α β : Type} {act : Act Memory α}
    {act' : Act Memory β} {boundary : ℕ} {answered : Ledger → α → Prop}
    {answered' : Ledger → β → Prop} {fails : Prop} {ℓ₁ : Ledger}
    (h : Handled S ℓ₁ id n' act' boundary answered' fails)
    (hmoves : ℓ.Moves id ℓ₁) (hsettings : n'.settings = n.settings)
    (happlied : n'.standing.lastApplied = n.standing.lastApplied)
    (hrun : ∀ threshold ℓ' commit,
      Ensures act' (n'.withThreshold threshold)
        (fun b m => Rests S ℓ' id (n.withThreshold threshold).settings commit
          boundary m ∧ answered' ℓ' b)
        (fun m => fails ∧
          Truthful S ℓ' id n.standing.lastApplied m.effects) →
      Ensures act (n.withThreshold threshold)
        (fun a m => Rests S ℓ' id (n.withThreshold threshold).settings commit
          boundary m ∧ answered ℓ' a)
        fun m => fails ∧
          Truthful S ℓ' id n.standing.lastApplied m.effects) :
    Handled S ℓ id n act boundary answered fails := by
  obtain ⟨ℓ', commit, hmoves', hsound, hact'⟩ := h
  refine ⟨ℓ', commit, hmoves.trans hmoves', hsound, fun threshold => ?_⟩
  have hsame : (n'.withThreshold threshold).settings =
      (n.withThreshold threshold).settings := by
    unfold Node.withThreshold
    rw [hsettings]
  have hgiven := hact' threshold
  rw [hsame, happlied] at hgiven
  exact hrun threshold ℓ' commit hgiven

theorem Ready.handled_heartbeat (h : Ready S ℓ id n) (hsound : ℓ.Sound S) :
    Handled S ℓ id n Node.replicateAll n.log.snapshotIndex (fun _ _ => True)
      False := by
  have hall := hsound.numbered (hsound.node id).grounded
  refine handled_of_rests n.standing.commitIndex hsound fun threshold => ?_
  have hready := h.withThreshold threshold
  exact (hready.tracks.replicateAll hall).mono
    (fun _ n' hquiet => hready.rests.quiet hquiet) fun _ he => he

theorem Ready.handled_stepDown (h : Ready S ℓ id n) (hsound : ℓ.Sound S)
    {term : ℕ} (hlt : n.standing.currentTerm < term) :
    Handled S ℓ id n (Node.stepDown term) n.log.snapshotIndex
      (fun _ _ => True) False :=
  ⟨ℓ.observe id term, n.standing.commitIndex, ℓ.moves_observe id term,
    hsound.observe id term, fun threshold =>
      ((h.withThreshold threshold).stepDown hsound hlt).mono
        (fun _ _ hn' => ⟨hn', trivial⟩) fun _ he => he.elim⟩

theorem Ready.handled_continueReplication (h : Ready S ℓ id n)
    (hsound : ℓ.Sound S) (hrole : n.standing.role = .leader) (peer : ℕ) :
    Handled S ℓ id n (Node.continueReplication peer) n.log.snapshotIndex
      (fun _ _ => True) False := by
  have hall := hsound.numbered (hsound.node id).grounded
  refine handled_of_rests (commitReached ℓ id n.membership.committed n.peers
    n.standing.commitIndex) hsound fun threshold => ?_
  exact (h.withThreshold threshold).continueReplication hall hrole

/-! ## Hearing back -/

theorem holds_recordSuccess {term index : ℕ} {p : Progress}
    (h : Holds ℓ term peer p) (hindex : index ≤ ℓ.held peer term) :
    Holds ℓ term peer (p.recordSuccess index) where
  matchIndex_le := max_le h.matchIndex_le hindex
  nextIndex_pos := lt_max_of_lt_right (Nat.succ_pos _)

theorem holds_recordMismatch {term hint : ℕ} {p : Progress}
    (h : Holds ℓ term peer p) : Holds ℓ term peer (p.recordMismatch hint) where
  matchIndex_le := h.matchIndex_le
  nextIndex_pos := lt_max_of_lt_right Nat.one_pos

/-- What a reply to entries says of a peer. -/
theorem quiet_recordReply {prevIndex count term : ℕ} {reply : AppendReply}
    (hterm : term = ℓ.term id)
    (hbacked : (Response.appendEntries reply).Backed ℓ peer
      ⟨term, .append prevIndex count⟩) :
    Quiet S ℓ id n (n.recordReply peer fun p =>
      if reply.success then p.recordSuccess (prevIndex + count)
      else p.recordMismatch reply.matchIndex) := by
  subst hterm
  refine quiet_modifyPeer fun p hp => ?_
  split
  · next hsuccess => exact holds_recordSuccess hp (hbacked hsuccess)
  · exact holds_recordMismatch hp

theorem quiet_recordInstalled {index term : ℕ} {reply : InstallReply}
    (hterm : term = ℓ.term id)
    (hbacked : (Response.installSnapshot reply).Backed ℓ peer
      ⟨term, .snapshot index⟩) (hsuccess : reply.success = true) :
    Quiet S ℓ id n (n.recordReply peer (·.recordSuccess index)) := by
  subst hterm
  exact quiet_modifyPeer fun p hp => holds_recordSuccess hp (hbacked hsuccess)

/-- The node after it noted the end of a request. -/
def noted (n : Node Memory) (peer : ℕ) : Node Memory :=
  n.recordReply peer fun p => { p with inFlight := false }

theorem quiet_noted (peer : ℕ) : Quiet S ℓ id n (n.noted peer) :=
  quiet_modifyPeer fun _ hp => ⟨hp.matchIndex_le, hp.nextIndex_pos⟩

/-- A reply counts for the leader that sent the request. -/
def Counts (n : Node Memory) (peer term : ℕ) : Prop :=
  ¬ (n.standing.role ≠ .leader ∨ term ≠ n.standing.currentTerm ∨
    (n.peers.get? peer).isNone)

theorem Counts.role {term : ℕ} (h : n.Counts peer term) :
    n.standing.role = .leader :=
  not_not.mp fun hne => h (Or.inl hne)

theorem Counts.term {term : ℕ} (h : n.Counts peer term) :
    term = n.standing.currentTerm :=
  not_not.mp fun hne => h (Or.inr (Or.inl hne))

/-- A reply that counts is noted first.  Of a later term it then makes the
leader step down; otherwise the leader goes on with what it learns of its
peers. -/
theorem Ready.handled_counted (h : Ready S ℓ id n) (hsound : ℓ.Sound S)
    {term : ℕ} (hcounts : n.Counts peer term) {act : Act Memory Unit}
    (replyTerm : ℕ) {peers : Table Progress} (hknown : Ready S ℓ id { n with peers := peers })
    (hrun : ∀ threshold Q E,
      (n.standing.currentTerm < replyTerm → Ensures (Node.stepDown replyTerm)
        ((n.noted peer).withThreshold threshold) Q E) →
      (¬ n.standing.currentTerm < replyTerm →
        Ensures (Node.continueReplication peer)
          (({ n with peers := peers } : Node Memory).withThreshold threshold) Q E) →
      Ensures act (n.withThreshold threshold) Q E) :
    Handled S ℓ id n act n.log.snapshotIndex (fun _ _ => True) False := by
  have hrefl : ℓ.Moves id ℓ := Ledger.Moves.refl id ℓ
  by_cases hlater : n.standing.currentTerm < replyTerm
  · have hnoted : Ready S ℓ id (n.noted peer) := h.quiet (quiet_noted peer)
    exact (hnoted.handled_stepDown hsound hlater).of_reduction hrefl rfl rfl
      fun threshold _ _ hover =>
        hrun threshold _ _ (fun _ => hover) fun hnot => absurd hlater hnot
  · exact (hknown.handled_continueReplication hsound hcounts.role peer).of_reduction
      hrefl rfl rfl fun threshold _ _ hgo =>
        hrun threshold _ _ (fun hyes => absurd hyes hlater) fun _ => hgo

theorem Ready.handled_appendReply (h : Ready S ℓ id n) (hsound : ℓ.Sound S)
    {term prevIndex count : ℕ} {reply : AppendReply}
    (hcounts : n.Counts peer term)
    (hbacked : (Response.appendEntries reply).Backed ℓ peer
      ⟨term, .append prevIndex count⟩) :
    Handled S ℓ id n (Node.handleReplicationReply peer
      ⟨term, .append prevIndex count⟩ (some (.appendEntries reply)))
        n.log.snapshotIndex (fun _ _ => True) False := by
  have hterm : term = ℓ.term id := hcounts.term.trans h.tracks.term
  have hnoted : Ready S ℓ id (n.noted peer) := h.quiet (quiet_noted peer)
  have hknown := hnoted.quiet (quiet_recordReply hterm hbacked)
  refine h.handled_counted hsound hcounts reply.term hknown
    fun threshold _ _ hover hgo => ?_
  unfold Node.handleReplicationReply
  rw [Ensures.get_bind_iff]
  refine Ensures.ite (fun hnot => absurd hnot hcounts) fun _ => ?_
  rw [Ensures.modify_bind_iff]
  exact Ensures.ite hover hgo

theorem Ready.handled_installReply (h : Ready S ℓ id n) (hsound : ℓ.Sound S)
    {term index : ℕ} {reply : InstallReply} (hcounts : n.Counts peer term)
    (hbacked : (Response.installSnapshot reply).Backed ℓ peer
      ⟨term, .snapshot index⟩) :
    Handled S ℓ id n (Node.handleReplicationReply peer
      ⟨term, .snapshot index⟩ (some (.installSnapshot reply)))
        n.log.snapshotIndex (fun _ _ => True) False := by
  have hterm : term = ℓ.term id := hcounts.term.trans h.tracks.term
  have hnoted : Ready S ℓ id (n.noted peer) := h.quiet (quiet_noted peer)
  by_cases hsuccess : reply.success = true
  · have hknown := hnoted.quiet (quiet_recordInstalled hterm hbacked hsuccess)
    refine h.handled_counted hsound hcounts reply.term hknown
      fun threshold _ _ hover hgo => ?_
    unfold Node.handleReplicationReply
    rw [Ensures.get_bind_iff]
    refine Ensures.ite (fun hnot => absurd hnot hcounts) fun _ => ?_
    rw [Ensures.modify_bind_iff]
    refine Ensures.ite hover fun hcurrent => ?_
    exact Ensures.ite (fun _ => hgo hcurrent) fun hnot => absurd hsuccess hnot
  · refine h.handled_counted hsound hcounts reply.term hnoted
      fun threshold _ _ hover hgo => ?_
    unfold Node.handleReplicationReply
    rw [Ensures.get_bind_iff]
    refine Ensures.ite (fun hnot => absurd hnot hcounts) fun _ => ?_
    rw [Ensures.modify_bind_iff]
    refine Ensures.ite hover fun hcurrent => ?_
    exact Ensures.ite (fun hyes => absurd hyes hsuccess) fun _ => hgo hcurrent

/-- The reply is of the kind that the request asks for. -/
def Fits : BatchKind → Option Response → Prop
  | .append _ _, some (.appendEntries _) => True
  | .snapshot _, some (.installSnapshot _) => True
  | _, _ => False

/-- Whatever comes back, the leader goes on or steps down. -/
theorem Ready.handled_replicationReply (h : Ready S ℓ id n)
    (hsound : ℓ.Sound S) {batch : Batch} {response : Option Response}
    (hbacked : ∀ r, response = some r → r.Backed ℓ peer batch) :
    Handled S ℓ id n (Node.handleReplicationReply peer batch response)
      n.log.snapshotIndex (fun _ _ => True) False := by
  obtain ⟨term, kind⟩ := batch
  by_cases hcounts : n.Counts peer term
  swap
  · refine handled_of_rests n.standing.commitIndex hsound fun threshold => ?_
    unfold Node.handleReplicationReply
    simp only [Ensures.get_bind_iff]
    exact Ensures.ite (fun _ => (h.withThreshold threshold).rests)
      fun hnot => absurd hnot hcounts
  by_cases hfits : Fits kind response
  · unfold Fits at hfits
    split at hfits
    · exact h.handled_appendReply hsound hcounts (hbacked _ rfl)
    · exact h.handled_installReply hsound hcounts (hbacked _ rfl)
    · exact hfits.elim
  · refine handled_of_rests n.standing.commitIndex hsound fun threshold => ?_
    unfold Node.handleReplicationReply
    simp only [Ensures.get_bind_iff]
    refine Ensures.ite (fun hnot => absurd hnot hcounts) fun _ => ?_
    rw [Ensures.modify_bind_iff]
    split
    · exact absurd trivial hfits
    · exact absurd trivial hfits
    · exact (h.withThreshold threshold).rests.quiet (quiet_noted peer)

end Consensus.Node
