import Consensus.Proofs.Node.Words

/-!
# Every event on words

A node that has room for an event handles it on words as it does without bound, and
nothing that it knows of afterwards is more than one index beyond what there was.
-/

namespace Consensus

namespace Node

variable {σ : Type} [Storage σ] {n : Node σ} {event : Event} {bound : ℕ}

/-! ## Elections -/

theorem Below.concur_append (h : n.Below bound) (hbound : bound < wordBound) (term : ℕ)
    (payload : Payload) :
    Concur (onJournal (@Journal.append σ _ .words term payload))
      (onJournal (Journal.append term payload)) n fun _ m => m.Below (bound + 1) :=
  Concur.onPart (Concur.onPart ((Journal.concur_append (h.mono (Nat.le_succ bound)).log
    (Nat.succ_lt_succ h.log.lastIndex_lt) hbound term payload).imp
      fun _ _ hj => ⟨hj, Nat.lt_succ_of_lt h.commit, Nat.lt_succ_of_lt h.applied,
        (h.mono (Nat.le_succ bound)).peers⟩))

omit [Storage σ] in
theorem crowned_words (h : n.log.lastIndex + 1 < wordBound) :
    @crowned σ n .words = n.crowned := by
  have hleads : (n.mapStanding (·.becomeLeader n.self)).log.lastIndex + 1 < wordBound := h
  unfold crowned
  dsimp only
  rw [Counting.words_plus hleads]
  rfl

section

variable (hbound : bound + 1 < wordBound)
include hbound

theorem Below.concur_becomeLeader (h : n.Below bound) :
    Concur (@becomeLeader σ _ .words) becomeLeader n fun _ m => m.Below (bound + 1) := by
  have hcrowned : n.crowned.Below bound := by
    have hstopped : (n.mapStanding (·.becomeLeader n.self)).stopReplication.Below bound :=
      ⟨h.log, h.commit, h.applied, Table.every_empty⟩
    exact hstopped.syncPeers _ _
  have hlast := h.log.lastIndex_lt
  unfold becomeLeader
  have hsame : @crowned σ n .words = n.crowned := crowned_words (by omega)
  exact Concur.modify_bind hsame (Concur.get_bind (Concur.bind
    (hcrowned.concur_append (by omega) _ _) fun _ _ hm => hm.concur_spread hbound))

theorem Below.concur_startElection (h : n.Below bound)
    (hterm : n.standing.currentTerm + 1 < wordBound) :
    Concur (@startElection σ _ .words) startElection n
      fun _ m => m.Below (bound + 1) := by
  have hrest := h.mono (Nat.le_succ bound)
  have hstands : (n.mapStanding (·.becomeCandidate n.self)).Below bound :=
    h.of_same rfl rfl rfl rfl
  have hsame : @Standing.becomeCandidate .words n.standing n.self =
      n.standing.becomeCandidate n.self := by
    unfold Standing.becomeCandidate
    rw [Counting.words_nextTerm hterm]
    rfl
  unfold startElection
  refine Concur.get_bind (Concur.ite (fun _ => Concur.refl hrest) fun _ => ?_)
  refine Concur.modify_bind ?_ (Concur.bind (Concur.refl hstands.ensures_persist)
    fun _ m hm => ?_)
  · exact congrArg (fun s => { n with standing := s }) hsame
  have hturned : ((m.afterRoleChange n.standing.role).emit .resetElectionTimer).Below
      bound := (hm.afterRoleChange _).of_same rfl rfl rfl rfl
  refine Concur.modify_bind rfl (Concur.get_bind (Concur.ite (fun _ => ?_) fun _ => ?_))
  · exact hturned.concur_becomeLeader hbound
  · exact Concur.refl ((hturned.mono (Nat.le_succ bound)).of_same rfl rfl rfl rfl)

theorem Below.concur_electionTimeout (h : n.Below bound)
    (hterm : n.standing.currentTerm + 1 < wordBound) :
    Concur (@handleElectionTimeout σ _ .words) handleElectionTimeout n
      fun _ m => m.Below (bound + 1) := by
  have hrest := h.mono (Nat.le_succ bound)
  unfold handleElectionTimeout
  refine Concur.get_bind (Concur.ite (fun _ => Concur.refl hrest) fun _ => ?_)
  refine Concur.ite (fun _ => Concur.refl (hrest.of_same rfl rfl rfl rfl)) fun _ => ?_
  exact h.concur_startElection hbound hterm

theorem Below.concur_voteReply (h : n.Below bound) (peer term : ℕ) (reply : VoteReply) :
    Concur (@handleVoteReply σ _ .words peer term reply) (handleVoteReply peer term reply)
      n fun _ m => m.Below (bound + 1) := by
  have hrest := h.mono (Nat.le_succ bound)
  unfold handleVoteReply
  refine Concur.get_bind (Concur.ite (fun _ => Concur.refl (hrest.ensures_stepDown _))
    fun _ => Concur.ite (fun _ => Concur.refl hrest) fun _ => ?_)
  have hcounted : (n.mapStanding fun s => { s with votes := s.votes.insert peer }).Below
      bound := h.of_same rfl rfl rfl rfl
  refine Concur.set_bind (Concur.ite (fun _ => ?_) fun _ => ?_)
  · exact hcounted.concur_becomeLeader hbound
  · exact Concur.refl (hcounted.mono (Nat.le_succ bound))

/-! ## Callers -/

theorem Below.concur_command (h : n.Below bound) (ticket : ℕ) (payload : Bytes) :
    Concur (@handleCommand σ _ .words ticket payload) (handleCommand ticket payload) n
      fun _ m => m.Below (bound + 1) := by
  unfold handleCommand
  refine Concur.get_bind (Concur.ite (fun _ => Concur.refl ?_) fun _ => ?_)
  · exact (h.mono (Nat.le_succ bound)).of_same rfl rfl rfl rfl
  refine Concur.bind (h.concur_append (by omega) _ _) fun index m hm => ?_
  let waiter : Waiter := ⟨n.standing.currentTerm, ticket⟩
  have hwaits : { m with
      commandWaiters := m.commandWaiters.insert index waiter }.Below (bound + 1) :=
    hm.of_same rfl rfl rfl rfl
  exact Concur.modify_bind rfl (hwaits.concur_spread hbound)

theorem Below.concur_change (h : n.Below bound) (ticket : ℕ) (change : ServerChange) :
    Concur (@handleChange σ _ .words ticket change) (handleChange ticket change) n
      fun _ m => m.Below (bound + 1) := by
  have hrefused : ∀ answer, Ensures (reply ticket answer) n
      (fun _ m => m.Below (bound + 1)) fun _ => True :=
    fun answer => (h.mono (Nat.le_succ bound)).of_same rfl rfl rfl rfl
  unfold handleChange
  refine Concur.get_bind (Concur.ite (fun _ => Concur.refl (hrefused _)) fun _ => ?_)
  refine Concur.ite (fun _ => Concur.refl (hrefused _)) fun _ => ?_
  refine Concur.ite (fun _ => Concur.refl (hrefused _)) fun _ => ?_
  refine Concur.bind (h.concur_append (by omega) _ _) fun index m hm => ?_
  let waiting : Node σ := { m with
    membership := m.membership.onAppend index (n.membership.committed.withChange change)
    changeWaiters := m.changeWaiters.insert index ⟨n.standing.currentTerm, ticket⟩ }
  have hwaits : waiting.Below (bound + 1) := hm.of_same rfl rfl rfl rfl
  have hlast : waiting.log.lastIndex < bound + 1 := hwaits.log.lastIndex_lt
  refine Concur.modify_bind ?_ ((hwaits.syncPeers waiting.targets _).concur_spread hbound)
  change waiting.syncPeers waiting.targets
    (Counting.words.plus waiting.log.lastIndex 1) = _
  rw [Counting.words_plus (by omega)]
  rfl

end

/-! ## Requests of peers -/

theorem Below.concur_voteRequest (h : n.Below bound) (request : VoteRequest) :
    Ensures (handleVoteRequest request) n (fun _ m => m.Below bound) fun _ => True := by
  have habides := (abides_answerVote n request).indices
  unfold handleVoteRequest
  rw [Ensures.get_bind_iff]
  dsimp only
  rw [Ensures.set_bind_iff]
  have hanswered : { n with standing :=
      (n.standing.answerVote n.log request).2 }.Below bound :=
    h.of_same rfl habides.commit habides.applied rfl
  refine hanswered.ensures_persist.andThen fun _ m hm => ?_
  rw [Ensures.modify_bind_iff]
  have hturned := hm.afterRoleChange n.standing.role
  refine Ensures.ite (fun _ => ?_) fun _ => hturned
  exact hturned.of_same rfl rfl rfl rfl

omit [Storage σ] in
/-- The commit index follows the leader's as far as the entries reach. -/
theorem Below.followCommit (h : n.Below bound) {reach : ℕ} (hreach : reach < bound)
    (leaderCommit : ℕ) :
    (n.mapStanding (Replica.followCommit · leaderCommit reach)).Below bound :=
  ⟨h.log, max_lt h.commit (min_lt_of_right_lt hreach), h.applied, h.peers⟩

theorem Below.concur_answerAppend (h : n.Below bound) (hbound : bound < wordBound)
    {request : AppendRequest} (hrequest : request.Below bound) :
    Concur (onReplica (@Replica.answerAppend σ _ .words request))
      (onReplica (Replica.answerAppend request)) n fun _ m => m.Below bound := by
  have hobserved : (n.mapStanding (·.observeTerm request.term)).Below bound :=
    h.of_same rfl (commitIndex_observeTerm _ _) (lastApplied_observeTerm _ _) rfl
  let accepted := n.mapStanding fun s =>
    Replica.acceptLeader (s.observeTerm request.term) request
  have haccepted : accepted.Below bound := by
    have hindices := (abides_following n request.term request.leader).indices
    exact h.of_same rfl hindices.commit hindices.applied rfl
  refine Concur.onPart ?_
  unfold Replica.answerAppend Replica.modifyStanding
  refine Concur.modify_bind rfl (Concur.get_bind ?_)
  refine Concur.ite (fun _ => Concur.refl hobserved) fun _ => ?_
  refine Concur.modify_bind rfl (Concur.ite (fun hdiffers => ?_) fun _ => ?_)
  · -- at index 0 there is nothing to differ from
    have hpos : 0 < request.prevIndex := by
      refine Nat.pos_of_ne_zero fun hzero => ?_
      rw [hzero, hrequest.origin hzero] at hdiffers
      unfold Log.matchesAt Log.termAt? at hdiffers
      simp at hdiffers
    have hreach := hrequest.reach
    dsimp only
    rw [Log.conflictHint_words hpos (by omega)]
    exact Concur.refl haccepted
  · have happend : Concur
        (Replica.onJournal (@Journal.appendFromLeader σ _ .words request.prevIndex
          request.entries))
        (Replica.onJournal (Journal.appendFromLeader request.prevIndex request.entries))
        accepted.toReplica fun reach r => reach < bound ∧
          { accepted with toReplica := r }.Below bound := by
      refine Concur.onPart ((Journal.concur_appendFromLeader haccepted.log
        hrequest.entries (hrequest.reach.trans hbound)).imp ?_)
      rintro reach j ⟨rfl, hlog⟩
      exact ⟨hrequest.reach, hlog, haccepted.commit, haccepted.applied, haccepted.peers⟩
    refine Concur.bind happend fun reach r hr => ?_
    exact Concur.modify_bind rfl (Concur.refl (hr.2.followCommit hr.1 _))

/-- What follows the answer to an append request counts only what is applied. -/
theorem Below.concur_concludeAppend (h : n.Below bound) (hbound : bound < wordBound)
    (before : Standing) (request : AppendRequest) (ticket : ℕ) (answer : AppendReply) :
    Concur (@concludeAppend σ _ .words before request ticket answer)
      (concludeAppend before request ticket answer) n fun _ m => m.Below bound := by
  have hfinish : ∀ m : Node σ, m.Below bound →
      Concur (@applyCommitted σ _ .words >>= fun _ => reply ticket (.append answer))
        (applyCommitted >>= fun _ => reply ticket (.append answer)) m
        fun _ m => m.Below bound := fun m hm =>
    Concur.bind (hm.concur_applyCommitted hbound) fun _ k hk =>
      Concur.refl (hk.of_same rfl rfl rfl rfl)
  unfold concludeAppend
  refine Concur.bind (Concur.refl h.ensures_persist) fun _ m hm => ?_
  have hturned := hm.afterRoleChange before.role
  refine Concur.modify_bind rfl (Concur.ite (fun _ => ?_) fun _ => ?_)
  · have hheard : ((m.afterRoleChange before.role).emit .resetElectionTimer).Below bound :=
      hturned.of_same rfl rfl rfl rfl
    exact Concur.modify_bind rfl (Concur.modify_bind rfl
      (hfinish _ (hheard.of_same rfl rfl rfl rfl)))
  · exact Concur.modify_bind rfl (hfinish _ (hturned.of_same rfl rfl rfl rfl))

theorem Below.concur_appendRequest (h : n.Below bound) (hbound : bound < wordBound)
    (ticket : ℕ) {request : AppendRequest} (hrequest : request.Below bound) :
    Concur (@handle σ _ .words (.appendRequest ticket request))
      (handle (.appendRequest ticket request)) n fun _ m => m.Below bound := by
  have hobserve : Ensures (if n.standing.currentTerm < request.term then do
        modify (·.mapStanding (·.observeTerm request.term))
        persist
      else pure () : Act σ Unit) n (fun _ m => m.Below bound) fun _ => True := by
    refine Ensures.ite (fun _ => ?_) fun _ => h
    rw [Ensures.modify_bind_iff]
    have hobserved : (n.mapStanding (·.observeTerm request.term)).Below bound :=
      h.of_same rfl (commitIndex_observeTerm _ _) (lastApplied_observeTerm _ _) rfl
    exact hobserved.ensures_persist
  rw [@handle_appendRequest_eq σ _ .words, handle_appendRequest_eq]
  refine Concur.get_bind (Concur.bind (Concur.refl hobserve) fun _ m hm => ?_)
  exact Concur.bind (hm.concur_answerAppend hbound hrequest) fun answer k hk =>
    hk.concur_concludeAppend hbound n.standing request ticket answer

/-! ## Snapshots -/

theorem concur_rebase {j : Journal σ} (h : j.log.Below bound)
    (hbound : bound < wordBound) {index : ℕ} (hindex : index < bound) (term : ℕ) :
    Concur (@Journal.rebase σ _ .words index term) (Journal.rebase index term) j
      fun _ j' => j'.log.Below bound := by
  unfold Journal.rebase
  refine Concur.get_bind (Concur.ite (fun _ => ?_) fun _ => ?_)
  · exact Concur.refl (Journal.below_compactTo h hindex term)
  · exact Journal.concur_resetTo h hbound hindex term

theorem Below.concur_installSnapshot (h : n.Below bound) (hbound : bound < wordBound)
    {request : InstallRequest} (hindex : request.lastIncludedIndex < bound) :
    Concur (@installSnapshot σ _ .words request) (installSnapshot request) n
      fun _ m => m.Below bound := by
  rw [@installSnapshot_eq σ _ .words, installSnapshot_eq]
  have hsaved : Ensures (onDisk (Storage.saveSnapshot request.snapshot)) n
      (fun _ m => m.Below bound) fun _ => True :=
    Ensures.onDisk (fun _ _ _ => h.of_same rfl rfl rfl rfl) fun _ _ _ => trivial
  refine Concur.bind (Concur.refl hsaved) fun _ m hm => ?_
  have hrebase : Concur (onJournal (@Journal.rebase σ _ .words request.lastIncludedIndex
        request.lastIncludedTerm))
      (onJournal (Journal.rebase request.lastIncludedIndex request.lastIncludedTerm)) m
      fun _ k => k.Below bound :=
    Concur.onPart (Concur.onPart ((concur_rebase hm.log hbound hindex _).imp
      fun _ _ hj => ⟨hj, hm.commit, hm.applied, hm.peers⟩))
  refine Concur.bind hrebase fun _ k hk => ?_
  unfold adoptSnapshot
  refine Concur.get_bind ?_
  cases k.recorder.restore request.data with
  | error e => exact Concur.refl trivial
  | ok recorder =>
    have hrebased : (k.rebased request k.toJournal recorder).Below bound :=
      ⟨hk.log, max_lt hk.commit hindex, hindex, hk.peers⟩
    exact Concur.set_bind (hrebased.concur_applyCommitted hbound)

theorem Below.concur_installRequest (h : n.Below bound) (hbound : bound < wordBound)
    {request : InstallRequest} (hindex : request.lastIncludedIndex < bound) :
    Concur (@handleInstallRequest σ _ .words request) (handleInstallRequest request) n
      fun _ m => m.Below bound := by
  unfold handleInstallRequest
  refine Concur.get_bind (Concur.ite (fun _ => Concur.refl h) fun _ => ?_)
  have hindices := (abides_following n request.term request.leader).indices
  have hfollows : (n.mapStanding fun s =>
      following (s.observeTerm request.term) request.term request.leader).Below bound :=
    h.of_same rfl hindices.commit hindices.applied rfl
  refine Concur.modify_bind rfl (Concur.bind (Concur.refl hfollows.ensures_persist)
    fun _ m hm => ?_)
  have hturned : ((m.afterRoleChange n.standing.role).emit .resetElectionTimer).Below
      bound := (hm.afterRoleChange _).of_same rfl rfl rfl rfl
  refine Concur.modify_bind rfl (Concur.get_bind (Concur.ite (fun _ => ?_) fun _ => ?_))
  · exact Concur.bind (hturned.concur_installSnapshot hbound hindex) fun _ k hk =>
      Concur.get_bind (Concur.refl hk)
  · exact Concur.get_bind (Concur.refl hturned)

/-! ## All events -/

/-- An event for which there is room does on words what it does without bound, and takes
every index one further at most. -/
theorem HasRoom.concur_handle (h : n.HasRoom event) :
    Concur (@handle σ _ .words event) (handle event) n
      fun _ m => m.Below (wordBound - 1) := by
  have hbelow := h.below
  have hbound : wordBound - 2 < wordBound := by decide
  have hnext : wordBound - 2 + 1 < wordBound := by decide
  have hlonger : ∀ {act act' : Act σ Unit},
      Concur act act' n (fun _ m => m.Below (wordBound - 2)) →
      Concur act act' n fun _ m => m.Below (wordBound - 1) :=
    fun hact => hact.imp fun _ _ hm => hm.mono (by decide)
  have hevent := h.event
  cases event with
  | voteRequest ticket request =>
    refine hlonger (Concur.bind (Concur.refl (hbelow.concur_voteRequest request))
      fun _ m hm => Concur.refl ?_)
    exact hm.of_same rfl rfl rfl rfl
  | appendRequest ticket request =>
    exact hlonger (hbelow.concur_appendRequest hbound ticket hevent)
  | installRequest ticket request =>
    refine hlonger (Concur.bind (hbelow.concur_installRequest hbound hevent)
      fun _ m hm => Concur.refl ?_)
    exact hm.of_same rfl rfl rfl rfl
  | command ticket payload => exact hbelow.concur_command hnext ticket payload
  | change ticket change => exact hbelow.concur_change hnext ticket change
  | voteReply peer term reply => exact hbelow.concur_voteReply hnext peer term reply
  | replicationReply peer batch response =>
    exact hlonger (hbelow.concur_replicationReply hbound hevent.1 hevent.2 peer)
  | campaign => exact hbelow.concur_startElection hnext (h.term (.inl rfl))
  | electionTimeout => exact hbelow.concur_electionTimeout hnext (h.term (.inr rfl))
  | heartbeat => exact hlonger (hbelow.concur_replicateAll hbound)

theorem HasRoom.handle_words (h : n.HasRoom event) :
    @handle σ _ .words event n = handle event n :=
  h.concur_handle.1

theorem HasRoom.outcome_words (h : n.HasRoom event) :
    outcome (@handle σ _ .words event) n = outcome (handle event) n := by
  unfold outcome
  rw [h.handle_words]

/-- After an event for which there was room, no index is the last word. -/
theorem HasRoom.below_handled (h : n.HasRoom event) {m : Node σ}
    (hrun : @handle σ _ .words event n = .ok () m) : m.Below (wordBound - 1) :=
  h.concur_handle.2.ok (h.handle_words.symm.trans hrun)

/-! ## Starting -/

/-- A node starts on words where it starts without bound, if no index in its log is the
last word. -/
theorem recover_words_iff {settings : Settings} {d d' : Durable σ}
    (h : n.log.Below (wordBound - 1)) :
    @recover σ _ .words settings d = .ok n d' ↔ recover settings d = .ok n d' := by
  unfold recover
  cases settings.validate with
  | error e => rfl
  | ok =>
    dsimp only
    simp only [bind_eq_ok_iff]
    refine exists_congr fun hard => exists_congr fun d₁ => and_congr_right fun _ => ?_
    refine exists_congr fun snapshot => exists_congr fun d₂ => and_congr_right fun _ => ?_
    refine exists_congr fun log => exists_congr fun d₃ => and_congr_left fun hrest => ?_
    have hlog : n.log = log := by
      refine Ensures.ok (Q := fun m _ => m.log = log) (E := fun _ => True) ?_ hrest
      refine Ensures.ite (fun _ => trivial) fun _ => ?_
      refine Ensures.andThen Ensures.anything fun applied d₄ _ => ?_
      exact Ensures.ite (fun _ => trivial) fun _ => rfl
    unfold Durable.onDisk
    rw [onPart_eq_ok_iff, onPart_eq_ok_iff]
    exact exists_congr fun disk => and_congr_left fun _ => Log.load_words_iff (hlog ▸ h)

end Node

end Consensus
