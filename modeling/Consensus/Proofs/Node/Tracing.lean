import Consensus.Proofs.Node.Deeds

/-!
# Every event runs its course

The handlers do nothing but deeds, in the order of a course.
-/

namespace Consensus

namespace Node

variable {σ α β : Type} [Storage σ] {n m n' : Node σ} {event : Event}

section

variable [Counting]

/-! ## Elections -/

/-- A computation that starts with a deed. -/
theorem Does.of_opens {act : Act σ α} {Q : α → Node σ → Prop}
    (hopens : Opens event n m) (h : Does event (Course event m) act m Q) :
    Does event (Course event n) act m Q :=
  h.mono fun _ hm => Opening.then_course (.single hopens) hm

theorem does_becomeLeader (hn : n.Saved) (hevent : event.Elects)
    (hrole : n.standing.role = .candidate)
    (hquorum : n.membership.committed.hasQuorum n.standing.votes = true) :
    Does event (Course event n) becomeLeader n fun _ _ => True := by
  have hcrowned : Opens event n n.crowned := .crowned hrole hquorum
  have hleads : n.crowned.standing.role = .leader := by
    rw [standing_crowned]
    rfl
  unfold becomeLeader
  refine Does.of_modify (.of_opens hcrowned (Does.of_get ?_))
  refine Ensures.bind (Ensures.onJournal (fun _ j hrun => ?_)
    fun e j hrun => ?_)
  · have hnoted : Opens event n.crowned { n.crowned with toJournal := j } :=
      .noted hevent hleads hrun
    exact Does.of_opens hnoted ((does_spread (hnoted.saved (hcrowned.saved hn))
      hevent.leader?).mono fun _ hm => hm.course)
  · exact ⟨n.crowned, Opening.course .refl,
      fails_of_breaks (.appending hleads hrun) rfl⟩

/-- Stand for election, and tell whether that is enough to lead. -/
def stand : Act σ Bool := do
  let n ← get
  if n.self ∉ n.membership.committed then
    return false
  let before := n.standing.role
  modify (·.mapStanding (·.becomeCandidate n.self))
  persist
  modify fun n => (n.afterRoleChange before).emit .resetElectionTimer
  let n ← get
  if n.membership.committed.hasQuorum n.standing.votes then
    return true
  else
    let others := n.membership.committed.erase n.self
    set (n.emitAll (others.toList.map fun peer => .requestVote peer n.voteRequest))
    return false

/-- Take a vote, and tell whether that is enough to lead. -/
def countVote (peer term : ℕ) (reply : VoteReply) : Act σ Bool := do
  let n ← get
  if n.standing.currentTerm < reply.term then
    stepDown reply.term
    return false
  else if n.standing.role ≠ .candidate ∨ term ≠ n.standing.currentTerm ∨
      !reply.granted then
    return false
  else
    let n := n.mapStanding fun s => { s with votes := s.votes.insert peer }
    set n
    return n.membership.committed.hasQuorum n.standing.votes

/-- Handle an event up to the moment where a node that has just been elected
would begin to lead, and tell whether it was elected. -/
def contest : Event → Act σ Bool
  | .campaign => stand
  | .electionTimeout => do
    let n ← get
    if n.standing.role = .leader then
      return false
    if n.self ∉ n.membership.committed then
      set (n.emit .resetElectionTimer)
      return false
    else
      stand
  | .voteReply peer term reply => countVote peer term reply
  | event => do
    handle event
    return false

/-- Lead if elected. -/
def leadIf (won : Bool) : Act σ Unit := if won then becomeLeader else pure ()

@[simp] theorem leadIf_false : (leadIf false : Act σ Unit) = pure () := rfl

@[simp] theorem leadIf_true : (leadIf true : Act σ Unit) = becomeLeader := rfl

omit [Storage σ] [Counting] in
theorem ite_bind {c : Prop} [Decidable c] (act act' : Act σ α) (f : α → Act σ β) :
    (if c then act else act') >>= f = if c then act >>= f else act' >>= f := by
  split <;> rfl

theorem startElection_eq :
    (startElection : Act σ Unit) = stand >>= leadIf := by
  unfold startElection stand
  simp only [bind_assoc, ite_bind, pure_bind]
  rfl

/-- A node begins to lead only where it was elected, as the last it does. -/
theorem handle_eq (event : Event) :
    (handle event : Act σ Unit) = contest event >>= leadIf := by
  cases event with
  | campaign => exact startElection_eq
  | electionTimeout =>
      unfold handle handleElectionTimeout contest
      simp only [bind_assoc, ite_bind, pure_bind, startElection_eq]
      rfl
  | voteReply peer term reply =>
      unfold handle handleVoteReply contest countVote
      simp only [bind_assoc, ite_bind, pure_bind, leadIf_false, bind_pure_unit]
      rfl
  | _ =>
      unfold contest
      simp only [bind_assoc, pure_bind, leadIf_false, bind_pure_unit]

/-- Where a contest ends: if it is won, nothing was done yet but to be elected. -/
def Contested (event : Event) (n : Node σ) (won : Bool) (m : Node σ) : Prop :=
  won = true → Opening event n m ∧ event.Elects ∧
    m.standing.role = .candidate ∧
    m.membership.committed.hasQuorum m.standing.votes = true

theorem contested_false : Contested event n false m :=
  fun hwon => absurd hwon (by simp)

theorem does_stand (hevent : event = .campaign ∨
      event = .electionTimeout ∧ n.standing.role ≠ .leader)
    (hterm : n.HasNextTerm event) :
    Does event (Course event n) stand n (Contested event n) := by
  have hhere : Course event n n := Opening.course .refl
  have helects : event.Elects := by
    rcases hevent with rfl | ⟨rfl, -⟩ <;> trivial
  unfold stand
  refine Does.of_get (Does.ite (fun _ => ⟨hhere, contested_false⟩)
    fun hmember => ?_)
  have hturns : n.Turns event (n.standing.becomeCandidate n.self) :=
    .stood hevent (not_not.mp hmember) (hterm (hevent.imp_right And.left))
  refine Does.of_modify (Ensures.andThen
    ((ensures_persist_turn hturns rfl).mono (fun _ _ hm => hm)
      fun m hm => ⟨n, hhere, hm⟩) ?_)
  rintro - m ⟨disk, hstores, rfl⟩
  have hopening : Opening event n ((n.turned (n.standing.becomeCandidate n.self)
      disk).emit .resetElectionTimer) :=
    .tail (.single (.turned hturns hstores)) .waited
  have hrole : ((n.turned (n.standing.becomeCandidate n.self)
      disk).emit .resetElectionTimer).standing.role = .candidate := by
    change (n.turned (n.standing.becomeCandidate n.self)
      disk).standing.role = .candidate
    rw [standing_turned]
    rfl
  refine Does.of_modify (Does.of_get (Does.ite (fun hquorum => ?_) fun _ => ?_))
  · exact ⟨hopening.course, fun _ => ⟨hopening, helects, hrole, hquorum⟩⟩
  · refine Does.of_set ⟨hopening.course.closing (.single ?_), contested_false⟩
    exact .campaigned (hevent.imp_right And.left) hrole

theorem does_countVote {peer term : ℕ} {reply : VoteReply} :
    Does (.voteReply peer term reply) (Course (.voteReply peer term reply) n)
      (countVote peer term reply) n
      (Contested (.voteReply peer term reply) n) := by
  have hhere : Course (.voteReply peer term reply) n n := Opening.course .refl
  unfold countVote
  refine Does.of_get (Does.ite (fun hterm => ?_) fun _ => ?_)
  · refine (does_stepDown rfl hterm).andThen (fun _ hm => hm.course)
      fun _ m hm _ => ?_
    exact ⟨hm.course, contested_false⟩
  · refine Does.ite (fun _ => ⟨hhere, contested_false⟩) fun hvalid => ?_
    simp only [not_or, not_not, Bool.not_eq_true'] at hvalid
    obtain ⟨hrole, rfl, hgranted⟩ := hvalid
    have hcounted : Opening (.voteReply peer n.standing.currentTerm reply) n
        (n.mapStanding fun s => { s with votes := s.votes.insert peer }) :=
      .single (.counted rfl hrole (Bool.eq_true_of_not_eq_false hgranted))
    exact Does.of_set ⟨hcounted.course,
      fun hquorum => ⟨hcounted, trivial, hrole, hquorum⟩⟩

/-! ## Requests of peers -/

omit [Storage σ] [Counting] in
theorem term_answerVote (s : Standing) (log : Log) (request : VoteRequest) :
    (s.answerVote log request).1.term =
      (s.answerVote log request).2.currentTerm := by
  unfold Standing.answerVote
  dsimp only
  split
  · rfl
  · split
    · rfl
    · split <;> rfl

omit [Storage σ] [Counting] in
theorem hardState_answerVote {s : Standing} {log : Log} {request : VoteRequest}
    (hgranted : (s.answerVote log request).1.granted = true) :
    (s.answerVote log request).2.hardState =
      ⟨request.term, some request.candidate⟩ := by
  rcases answerVote_cases s log request with
    ⟨hrefused, -⟩ | ⟨-, hstanding, hle, -⟩
  · exact absurd (hgranted.symm.trans hrefused) (by simp)
  · rw [hstanding]
    exact congrArg (HardState.mk · _)
      (le_antisymm hle (le_observeTerm s request.term))

theorem does_voteRequest (ticket : ℕ) (request : VoteRequest) :
    Does (.voteRequest ticket request) (Course (.voteRequest ticket request) n)
      (handle (.voteRequest ticket request)) n fun _ _ => True := by
  have hturns : n.Turns (.voteRequest ticket request)
      (n.standing.answerVote n.log request).2 := .asked ticket request
  have hterm := term_answerVote n.standing n.log request
  have hhard := @hardState_answerVote n.standing n.log request
  unfold handle handleVoteRequest
  simp only [bind_assoc, ite_bind, pure_bind]
  refine Does.of_get ?_
  generalize n.standing.answerVote n.log request = answer at hturns hterm hhard
  obtain ⟨reply, s⟩ := answer
  refine Does.of_set (Ensures.andThen
    ((ensures_persist_turn hturns rfl).mono (fun _ _ hm => hm)
      fun m hm => ⟨n, Opening.course .refl, hm⟩) ?_)
  rintro - m ⟨disk, hstores, rfl⟩
  have hturned : Opens (.voteRequest ticket request) n (n.turned s disk) :=
    .turned hturns hstores
  have hanswers : ∀ m : Node σ, m.standing = s →
      m.Answers (.voteRequest ticket request) ticket (.vote reply) := by
    rintro m rfl
    exact .vote hterm hhard
  refine Does.of_modify (.of_opens hturned ?_)
  refine Does.ite (fun _ => ?_) fun _ => ?_
  · refine Does.of_modify (.of_opens .waited ?_)
    refine (does_reply (hanswers _ ?_)).mono fun m hm =>
      (Closing.settling hm).course
    exact standing_turned n s disk
  · refine (does_reply (hanswers _ ?_)).mono fun m hm =>
      (Closing.settling hm).course
    exact standing_turned n s disk

theorem Closes.currentTerm (h : Closes event n n') :
    n'.standing.currentTerm = n.standing.currentTerm := by
  cases h with
  | applied =>
      rw [(enacted_applyEntry _ _ _).standing]
  | retired => rw [standing_turned, retiring_eq]
  | announced => rfl
  | compacted => rfl
  | dispatched => rfl
  | campaigned => rfl
  | answered => rfl

theorem currentTerm_of_closing (h : Closing event n n') :
    n'.standing.currentTerm = n.standing.currentTerm :=
  keeps_of_reflTransGen (I := fun m =>
    m.standing.currentTerm = n.standing.currentTerm) h
      (fun _ _ hstep ha => hstep.currentTerm.trans ha) rfl

/-- What follows once the entries of a request are taken over. -/
theorem does_finishAppend (hn : n.Saved) (ticket : ℕ) (request : AppendRequest)
    {answer : AppendReply} (hterm : answer.term = n.standing.currentTerm) :
    Does (.appendRequest ticket request)
      (Closing (.appendRequest ticket request) n)
      (applyCommitted >>= fun _ => reply ticket (.append answer)) n
      fun _ _ => True := by
  refine (does_applyCommitted hn).andThen (fun _ hm => hm) fun _ m hm _ => ?_
  refine (does_reply (.append request ?_)).mono fun _ hm' => hm.trans hm'
  exact hterm.trans (currentTerm_of_closing hm).symm

omit [Storage σ] [Counting] in
/-- A leadership can be wound up before or after the log changes. -/
theorem turned_withJournal (n : Node σ) (disk : σ) (j : Journal σ)
    (s s' : Standing) (hrole : s'.role = s.role) (hleader : s'.leader = s.leader) :
    ({ n with toJournal := j, standing := s', persisted := s.hardState } :
      Node σ).afterRoleChange n.standing.role =
        { n.turned s disk with toJournal := j, standing := s' } := by
  unfold turned afterRoleChange
  simp only [hrole, hleader]
  split <;> rfl

omit [Storage σ] [Counting] in
theorem afterRoleChange_self (n : Node σ) :
    n.afterRoleChange n.standing.role = n := by
  unfold afterRoleChange
  refine if_pos ?_
  by_cases hrole : n.standing.role = .leader
  · exact Or.inr hrole
  · exact Or.inl hrole

theorem ensures_answerAppend_of_lt {request : AppendRequest}
    (hlt : request.term < n.standing.currentTerm) :
    Ensures (onReplica (Replica.answerAppend request)) n
      (fun answer m => answer.term = n.standing.currentTerm ∧ m = n)
      fun _ => False := by
  refine Ensures.onPart ?_
  unfold Replica.answerAppend Replica.modifyStanding
  rw [Ensures.modify_bind_iff, Ensures.get_bind_iff]
  simp only [observeTerm_of_le hlt.le]
  exact Ensures.ite (fun _ => ⟨rfl, rfl⟩) fun hnot => absurd hlt hnot

/-- A request of the current term makes a follower, and is taken over if it fits
the log, which the answer tells. -/
theorem ensures_answerAppend {request : AppendRequest}
    (hterm : request.term = n.standing.currentTerm) :
    Ensures (onReplica (Replica.answerAppend request)) n
      (fun answer m => answer.term = n.standing.currentTerm ∧
        (answer.success = false ∧
          n.log.matchesAt request.prevIndex request.prevTerm = false ∧
            m = { n with
              standing := following n.standing request.term request.leader } ∨
          answer.success = true ∧
          n.log.matchesAt request.prevIndex request.prevTerm = true ∧
          ∃ reach j, Journal.appendFromLeader request.prevIndex request.entries
              n.toJournal = .ok reach j ∧
            m = { n with
              toJournal := j
              standing := Replica.followCommit
                (following n.standing request.term request.leader)
                request.leaderCommit reach }))
      fun m => n.log.matchesAt request.prevIndex request.prevTerm = true ∧
        ∃ e j, Journal.appendFromLeader request.prevIndex request.entries
            n.toJournal = .error e j ∧
          m = { n with
            toJournal := j
            standing := following n.standing request.term request.leader } := by
  refine Ensures.onPart ?_
  unfold Replica.answerAppend Replica.modifyStanding
  rw [Ensures.modify_bind_iff, Ensures.get_bind_iff]
  simp only [observeTerm_of_le hterm.le]
  refine Ensures.ite (fun hlt => absurd hterm hlt.ne) fun _ => ?_
  rw [Ensures.modify_bind_iff]
  refine Ensures.ite (fun hdiffers => ?_) fun hfits => ?_
  · exact ⟨rfl, Or.inl ⟨rfl, by simpa using hdiffers, rfl⟩⟩
  have hfits : n.log.matchesAt request.prevIndex request.prevTerm = true := by
    simpa using hfits
  refine Ensures.bind (Ensures.onPart (.of_runs (fun reach j hrun => ?_)
    fun e j hrun => ?_))
  · exact ⟨rfl, Or.inr ⟨rfl, hfits, reach, j, hrun, rfl⟩⟩
  · exact ⟨hfits, e, j, hrun, rfl⟩

/-- What follows the answer to an append request. -/
def concludeAppend (before : Standing) (request : AppendRequest) (ticket : ℕ)
    (answer : AppendReply) : Act σ Unit := do
  persist
  modify (·.afterRoleChange before.role)
  if before.currentTerm ≤ request.term then
    modify (·.emit .resetElectionTimer)
  modify refreshed
  applyCommitted
  reply ticket (.append answer)

/-- The node when its role has changed, a leader was heard or not, and the
pending change is read off the log. -/
def heard (n : Node σ) (before : Standing) (request : AppendRequest) : Node σ :=
  (if before.currentTerm ≤ request.term then
    (n.afterRoleChange before.role).emit .resetElectionTimer
  else n.afterRoleChange before.role).refreshed

theorem does_concludeAppend {before : Standing} {request : AppendRequest}
    {ticket : ℕ} {answer : AppendReply} (hm : m.Saved)
    (hterm : answer.term = m.standing.currentTerm)
    (hopening : Opening (.appendRequest ticket request) n
      (m.heard before request)) :
    Does (.appendRequest ticket request)
      (Course (.appendRequest ticket request) n)
      (concludeAppend before request ticket answer) m fun _ _ => True := by
  have haside := aside_afterRoleChange m before.role
  have hsaved : (m.afterRoleChange before.role).Saved := haside.saved hm
  have hcurrent : answer.term =
      (m.afterRoleChange before.role).standing.currentTerm := by
    rw [haside.standing]
    exact hterm
  have hfinish : ∀ k : Node σ, k.Saved →
      answer.term = k.standing.currentTerm →
      Opening (.appendRequest ticket request) n k →
      Does (.appendRequest ticket request)
        (Course (.appendRequest ticket request) n)
        (applyCommitted >>= fun _ => reply ticket (.append answer)) k
        fun _ _ => True := fun k hk hterm hopening =>
    (does_finishAppend hk ticket request hterm).mono fun _ h =>
      hopening.course.closing h
  unfold heard at hopening
  unfold concludeAppend
  refine Ensures.bind_of_ok (persist_of_saved hm) (Does.of_modify ?_)
  refine Does.ite (fun hle => ?_) fun hlt => ?_
  · rw [if_pos hle] at hopening
    exact Does.of_modify (Does.of_modify (hfinish _ hsaved hcurrent hopening))
  · rw [if_neg hlt] at hopening
    exact Does.of_modify (hfinish _ hsaved hcurrent hopening)

/-- A request that only a leader of its term sends makes a node observe the
term. -/
theorem ensures_observe (hn : n.Saved) {term leader : ℕ}
    (hleader : event.leader? = some (term, leader))
    (hle : n.standing.currentTerm ≤ term) :
    Ensures (if n.standing.currentTerm < term then do
        modify (·.mapStanding (·.observeTerm term))
        persist
      else pure ()) n
      (fun _ m => ∃ disk,
        n.Stores (n.standing.observeTerm term).hardState disk ∧
          m = { n with
            standing := n.standing.observeTerm term
            disk := disk
            persisted := (n.standing.observeTerm term).hardState })
      (Fails event n) := by
  have hturns := Turns.led hleader hle
  refine Ensures.ite (fun _ => ?_) fun hnot => ?_
  · rw [Ensures.modify_bind_iff]
    exact ensures_persist_turn hturns
      (hardState_following (le_observeTerm _ _) leader)
  · refine ⟨n.disk, ?_, ?_⟩ <;> rw [observeTerm_of_le (not_lt.mp hnot)]
    · exact .held hn.symm
    · rw [← hn]

theorem does_appendRequest_of_lt (hn : n.Saved) {ticket : ℕ}
    {request : AppendRequest} (hlt : request.term < n.standing.currentTerm) :
    Does (.appendRequest ticket request)
      (Course (.appendRequest ticket request) n)
      (onReplica (Replica.answerAppend request) >>=
        concludeAppend n.standing request ticket) n fun _ _ => True := by
  have hopening : Opening (.appendRequest ticket request) n
      (n.heard n.standing request) := by
    unfold heard
    rw [afterRoleChange_self, if_neg (not_le.mpr hlt)]
    exact .single (.refreshed rfl)
  refine Ensures.andThen_of_succeeds (ensures_answerAppend_of_lt hlt) ?_
  rintro answer m ⟨hterm, rfl⟩
  exact does_concludeAppend hn hterm hopening

theorem handle_appendRequest_eq (ticket : ℕ) (request : AppendRequest) :
    (handle (.appendRequest ticket request) : Act σ Unit) =
      get >>= fun n => (if n.standing.currentTerm < request.term then do
          modify (·.mapStanding (·.observeTerm request.term))
          persist
        else pure ()) >>= fun _ =>
          onReplica (Replica.answerAppend request) >>=
            concludeAppend n.standing request ticket := by
  unfold handle handleAppendRequest concludeAppend
  simp only [bind_assoc, ite_bind, pure_bind]
  rfl

omit [Storage σ] [Counting] in
theorem takes_turned (n : Node σ) {s : Standing} {disk : σ} (ticket : ℕ)
    {request : AppendRequest} (hrole : s.role = .follower)
    (hterm : request.term = s.currentTerm)
    (hfits : n.log.matchesAt request.prevIndex request.prevTerm = true) :
    (n.turned s disk).Takes (.appendRequest ticket request) request := by
  constructor
  · exact ⟨ticket, rfl⟩
  · rw [standing_turned]
    exact hrole
  · rw [standing_turned]
    exact hterm
  · rw [log_turned]
    exact hfits

theorem does_appendRequest (hn : n.Saved) (ticket : ℕ) (request : AppendRequest) :
    Does (.appendRequest ticket request)
      (Course (.appendRequest ticket request) n)
      (handle (.appendRequest ticket request)) n fun _ _ => True := by
  rw [handle_appendRequest_eq]
  refine Does.of_get ?_
  rcases lt_or_ge request.term n.standing.currentTerm with hlt | hle
  · rw [if_neg (not_lt.mpr hlt.le)]
    exact does_appendRequest_of_lt hn hlt
  -- the node stands in the term of the request, and follows its leader
  refine Ensures.andThen ((ensures_observe hn rfl hle).mono (fun _ _ hm => hm)
    fun m hm => ⟨n, Opening.course .refl, hm⟩) ?_
  rintro - m ⟨disk, hstores, rfl⟩
  have hcurrent := currentTerm_observeTerm hle
  generalize hs : following (n.standing.observeTerm request.term) request.term
    request.leader = s
  have hrole : s.role = .follower := hs ▸ role_following hcurrent.ge _
  have hhard : s.hardState = (n.standing.observeTerm request.term).hardState :=
    hs ▸ hardState_following hcurrent.ge _
  have hterm : request.term = s.currentTerm :=
    hcurrent.symm.trans (congrArg HardState.currentTerm hhard.symm)
  have hopening : Opening (.appendRequest ticket request) n (n.turned s disk) :=
    .single (.turned (hs ▸ .led rfl hle) (hhard ▸ hstores))
  have haside := aside_turned n s disk
  refine Ensures.andThen ((ensures_answerAppend hcurrent.symm).mono
    (fun _ _ hm => hm) ?_) ?_
  · rintro m ⟨hfits, e, j, hrun, rfl⟩
    refine ⟨n.turned s disk, hopening.course, ?_, haside.recorder.symm, ?_,
      fun ticket => ?_⟩
    · rw [← journal_turned n s disk] at hrun
      exact .merging (takes_turned n ticket hrole hterm hfits) hrun
    · obtain ⟨more, hmore, -⟩ := haside.effects
      exact ⟨more, hmore.symm⟩
    · exact (dues_turned n s disk ticket).symm
  · rintro answer m ⟨hanswer, hm⟩
    dsimp only at hm hanswer
    rw [hs, ← hhard] at hm
    rw [hcurrent, hterm] at hanswer
    rcases hm with ⟨-, -, rfl⟩ | ⟨-, hfits, reach, j, hrun, rfl⟩
    · refine does_concludeAppend rfl hanswer ?_
      unfold heard
      rw [if_pos hle]
      exact (hopening.tail .waited).tail (.refreshed rfl)
    · rw [← journal_turned n s disk] at hrun
      have hmerged := Opens.merged (takes_turned n ticket hrole hterm hfits) hrun
      rw [standing_turned] at hmerged
      refine does_concludeAppend rfl hanswer ?_
      unfold heard
      rw [if_pos hle, turned_withJournal n disk j s
        (Replica.followCommit s request.leaderCommit reach) rfl rfl]
      exact (hopening.tail hmerged).tail .waited

/-- Take over the snapshot of a request once the log is put on its base. -/
def adoptSnapshot (request : InstallRequest) : Act σ Unit := do
  let n ← get
  match n.recorder.restore request.data with
  | .error e => throw e
  | .ok recorder =>
    set (n.rebased request n.toJournal recorder)
    applyCommitted

theorem installSnapshot_eq (request : InstallRequest) :
    (installSnapshot request : Act σ Unit) =
      onDisk (Storage.saveSnapshot request.snapshot) >>= fun _ =>
        onJournal (Journal.rebase request.lastIncludedIndex
          request.lastIncludedTerm) >>= fun _ => adoptSnapshot request := by
  have hrebase : (onJournal (Journal.rebase request.lastIncludedIndex
      request.lastIncludedTerm) : Act σ Unit) = get >>= fun n =>
        if n.log.termAt? request.lastIncludedIndex =
            some request.lastIncludedTerm then
          onJournal (Journal.compactTo request.lastIncludedIndex
            request.lastIncludedTerm)
        else
          onJournal (Journal.resetTo request.lastIncludedIndex
            request.lastIncludedTerm) := by
    funext n
    change _ = (ite _ _ _ : Act σ Unit) n
    by_cases hagrees : n.log.termAt? request.lastIncludedIndex =
        some request.lastIncludedTerm
    · rw [if_pos hagrees]
      unfold onJournal onReplica Replica.onJournal onPart
      simp only [Journal.rebase_apply, if_pos hagrees]
    · rw [if_neg hagrees]
      unfold onJournal onReplica Replica.onJournal onPart
      simp only [Journal.rebase_apply, if_neg hagrees]
  rw [hrebase]
  unfold installSnapshot adoptSnapshot
  simp only [bind_assoc, ite_bind]
  rfl

theorem does_installSnapshot (hn : n.Saved) {request : InstallRequest}
    (hadmits : n.Admits event request) :
    Does event (Course event n) (installSnapshot request) n
      fun _ m => m.standing.currentTerm = n.standing.currentTerm := by
  have hhere : Course event n n := Opening.course .refl
  rw [installSnapshot_eq]
  refine Ensures.bind (Ensures.onDisk (fun _ disk hsaved => ?_)
    fun e disk hrun => ⟨n, hhere,
      fails_of_breaks (.receiving hadmits hrun) rfl⟩)
  refine Ensures.bind (Ensures.onJournal (fun _ j hrun => ?_)
    fun e j hrun => ⟨n, hhere,
      fails_of_breaks (.rebasing hadmits hsaved hrun) rfl⟩)
  unfold adoptSnapshot
  refine Does.of_get ?_
  dsimp only
  cases hrestored : n.recorder.restore request.data with
  | error e =>
      exact ⟨n, hhere, fails_of_breaks
        (.restoring hadmits hsaved hrun hrestored) rfl⟩
  | ok recorder =>
      have hrebased : Opens event n (n.rebased request j recorder) :=
        .rebased hadmits hsaved hrun hrestored
      refine Does.of_set (((does_applyCommitted (hrebased.saved hn)).imp
        fun _ m hm _ => ?_).mono fun m hm => ?_)
      · have hterm := currentTerm_of_closing hm
        exact hterm
      · exact Opening.then_course (.single hrebased) (Closing.settling hm).course

theorem does_installRequest (ticket : ℕ)
    (request : InstallRequest) :
    Does (.installRequest ticket request)
      (Course (.installRequest ticket request) n)
      (handle (.installRequest ticket request)) n fun _ _ => True := by
  have hanswer : ∀ m : Node σ, ∀ success : Bool,
      Closing (.installRequest ticket request) m
        (m.emit (.answer ticket
          (.install ⟨m.standing.currentTerm, success⟩))) :=
    fun m success => .single (.answered (.install request rfl))
  unfold handle handleInstallRequest
  simp only [bind_assoc, ite_bind, pure_bind]
  refine Does.of_get (Does.ite (fun _ => ?_) fun hle => ?_)
  · exact ⟨(Closing.settling (hanswer n false)).course, trivial⟩
  have hle := not_lt.mp hle
  have hcurrent := currentTerm_observeTerm hle
  have hturns : n.Turns (.installRequest ticket request)
      (following (n.standing.observeTerm request.term) request.term
        request.leader) := .led rfl hle
  have hrole := role_following hcurrent.ge request.leader
  have hhard := hardState_following hcurrent.ge request.leader
  have hterm : request.term = (following (n.standing.observeTerm request.term)
      request.term request.leader).currentTerm :=
    hcurrent.symm.trans (congrArg HardState.currentTerm hhard.symm)
  refine Does.of_modify (Ensures.andThen
    ((ensures_persist_turn hturns rfl).mono (fun _ _ hm => hm)
      fun m hm => ⟨n, Opening.course .refl, hm⟩) ?_)
  rintro - m ⟨disk, hstores, rfl⟩
  generalize following (n.standing.observeTerm request.term) request.term
    request.leader = s at hturns hrole hterm hstores
  have hopening : Opening (.installRequest ticket request) n
      ((n.turned s disk).emit .resetElectionTimer) :=
    .tail (.single (.turned hturns hstores)) .waited
  have hsaved : ((n.turned s disk).emit .resetElectionTimer).Saved :=
    saved_turned n s disk
  have hstanding : ((n.turned s disk).emit .resetElectionTimer).standing = s :=
    standing_turned n s disk
  refine Does.of_modify (Does.of_get (Does.ite (fun hnew => ?_) fun _ => ?_))
  · have hadmits : ((n.turned s disk).emit .resetElectionTimer).Admits
        (.installRequest ticket request) request := {
      event := ⟨ticket, rfl⟩
      role := hstanding.symm ▸ hrole
      term := hstanding.symm ▸ hterm
      new := hnew }
    refine Does.andThen ((does_installSnapshot hsaved hadmits).mono
      fun m hm => hopening.then_course hm) (fun _ hm => hm) fun _ m hm _ => ?_
    exact ⟨hm.closing (hanswer m true), trivial⟩
  · exact ⟨hopening.course.closing (hanswer _ true), trivial⟩

/-! ## Callers and replies -/

theorem does_command (hn : n.Saved) (ticket : ℕ) (payload : Bytes) :
    Does (.command ticket payload) (Course (.command ticket payload) n)
      (handle (.command ticket payload)) n fun _ _ => True := by
  have hhere : Course (.command ticket payload) n n := Opening.course .refl
  unfold handle handleCommand
  refine Does.of_get (Does.ite (fun hrole => ?_) fun hleads => ?_)
  · exact (does_reply (.command payload hrole)).mono
      fun _ hm => hhere.closing hm
  · have hleads := not_not.mp hleads
    refine Ensures.bind (Ensures.onJournal (fun _ j hrun => ?_)
      fun e j hrun => ⟨n, hhere,
        fails_of_breaks (.appending hleads hrun) rfl⟩)
    have haccepted : Opens (.command ticket payload) n _ :=
      .accepted rfl hleads hrun
    exact Does.of_modify ((does_spread (haccepted.saved hn) rfl).mono
      fun _ hm => Opening.then_course (.single haccepted) hm.course)

theorem does_change (hn : n.Saved) (ticket : ℕ) (change : ServerChange) :
    Does (.change ticket change) (Course (.change ticket change) n)
      (handle (.change ticket change)) n fun _ _ => True := by
  have hhere : Course (.change ticket change) n n := Opening.course .refl
  unfold handle handleChange
  refine Does.of_get (Does.ite (fun hrole => ?_) fun hleads => ?_)
  · exact (does_reply (.change change hrole)).mono
      fun _ hm => hhere.closing hm
  have hleads := not_not.mp hleads
  refine Does.ite (fun hpending => ?_) fun hfree => ?_
  · exact (does_reply (.busy change hleads hpending)).mono
      fun _ hm => hhere.closing hm
  have hfree := Bool.eq_false_of_not_eq_true hfree
  refine Does.ite (fun hsame => ?_) fun hchanges => ?_
  · exact (does_reply (.unchanged hleads hfree hsame)).mono
      fun _ hm => hhere.closing hm
  · refine Ensures.bind (Ensures.onJournal (fun _ j hrun => ?_)
      fun e j hrun => ⟨n, hhere,
        fails_of_breaks (.appending hleads hrun) rfl⟩)
    have hproposed : Opens (.change ticket change) n _ :=
      .proposed rfl hleads hfree (Bool.eq_false_of_not_eq_true hchanges) hrun
    exact Does.of_modify ((does_spread (hproposed.saved hn) rfl).mono
      fun _ hm => Opening.then_course (.single hproposed) hm.course)

theorem does_continueReplication (hn : n.Saved) (peer : ℕ)
    (hevent : event.leader? = none) :
    Does event (Settling event n) (continueReplication peer) n
      fun _ _ => True := by
  unfold continueReplication
  refine (does_advanceCommit hn hevent).andThen (fun _ hm => hm)
    fun _ m hm _ => Does.of_get (Does.ite (fun hbehind => ?_)
      fun _ => ⟨hm, trivial⟩)
  exact ((does_replicateTo peer hbehind.2).mono fun _ hm' =>
    hm.closing hm').imp fun _ _ _ _ => trivial

theorem does_replicationReply (hn : n.Saved) (peer : ℕ) (batch : Batch)
    (response : Option Response) :
    Does (.replicationReply peer batch response)
      (Course (.replicationReply peer batch response) n)
      (handle (.replicationReply peer batch response)) n fun _ _ => True := by
  unfold handle handleReplicationReply
  refine Does.of_get (Does.ite
    (fun _ => ⟨Opening.course .refl, trivial⟩) fun hvalid => ?_)
  simp only [not_or, not_not] at hvalid
  obtain ⟨hrole, hterm, -⟩ := hvalid
  have hended : Opens (.replicationReply peer batch response) n
      (n.recordReply peer fun p => { p with inFlight := false }) :=
    .recorded rfl hrole hterm (.ended response)
  have hsaved := hended.saved hn
  refine Does.of_modify ?_
  -- the node has heard of the end of the request, whatever else it learns
  have hgo : ∀ m : Node σ, Opening (.replicationReply peer batch response) n m →
      m.Saved → Does (.replicationReply peer batch response)
        (Course (.replicationReply peer batch response) n)
        (continueReplication peer) m fun _ _ => True :=
    fun m hm hsaved => (does_continueReplication hsaved peer rfl).mono
      fun _ hm' => hm.then_course hm'.course
  have hover : ∀ {term : ℕ},
      Event.replyTerm? (.replicationReply peer batch response) = some term →
      n.standing.currentTerm < term →
      Does (.replicationReply peer batch response)
        (Course (.replicationReply peer batch response) n) (stepDown term)
        (n.recordReply peer fun p => { p with inFlight := false })
        fun _ _ => True := by
    intro term hreply hlt
    have hlt : (n.recordReply peer fun p =>
        { p with inFlight := false }).standing.currentTerm < term := hlt
    exact (does_stepDown hreply hlt).mono
      fun _ hm => Opening.course (.head hended hm)
  split
  · next prevIndex count reply hkind =>
    refine Does.ite (fun hlt => hover rfl hlt) fun _ => Does.of_modify ?_
    have hlearned : Opens (.replicationReply peer batch
        (some (.appendEntries reply))) (n.recordReply peer fun p =>
          { p with inFlight := false }) _ :=
      .recorded rfl hrole hterm (.appended hkind reply)
    exact hgo _ (.tail (.single hended) hlearned) (hlearned.saved hsaved)
  · next index reply hkind =>
    refine Does.ite (fun hlt => hover rfl hlt) fun _ => ?_
    refine Does.ite (fun hsuccess => Does.of_modify ?_) fun _ => ?_
    · have hlearned : Opens (.replicationReply peer batch
          (some (.installSnapshot reply))) (n.recordReply peer fun p =>
            { p with inFlight := false }) _ :=
        .recorded rfl hrole hterm (.installed hkind hsuccess)
      exact hgo _ (.tail (.single hended) hlearned) (hlearned.saved hsaved)
    · exact hgo _ (.single hended) hsaved
  · exact ⟨Opening.course (.single hended), trivial⟩

/-! ## All handlers -/

theorem does_contest (hn : n.Saved) (hterm : n.HasNextTerm event) :
    Does event (Course event n) (contest event) n (Contested event n) := by
  have hcalm : ∀ {act : Act σ Unit},
      Does event (Course event n) act n (fun _ _ => True) →
      Does event (Course event n) (act >>= fun _ => pure false) n
        (Contested event n) :=
    fun h => h.andThen (fun _ hm => hm) fun _ _ hm _ => ⟨hm, contested_false⟩
  cases event with
  | voteRequest ticket request => exact hcalm (does_voteRequest ticket request)
  | appendRequest ticket request =>
      exact hcalm (does_appendRequest hn ticket request)
  | installRequest ticket request =>
      exact hcalm (does_installRequest ticket request)
  | command ticket payload => exact hcalm (does_command hn ticket payload)
  | change ticket change => exact hcalm (does_change hn ticket change)
  | voteReply peer term reply => exact does_countVote
  | replicationReply peer batch response =>
      exact hcalm (does_replicationReply hn peer batch response)
  | campaign => exact does_stand (Or.inl rfl) hterm
  | electionTimeout =>
      have hhere : Course .electionTimeout n n := Opening.course .refl
      refine Does.of_get (Does.ite (fun _ => ⟨hhere, contested_false⟩)
        fun hrole => ?_)
      refine Does.ite (fun _ => ?_) fun _ => does_stand (Or.inr ⟨rfl, hrole⟩) hterm
      exact Does.of_set ⟨Opening.course (.single .waited), contested_false⟩
  | heartbeat =>
      exact hcalm ((does_replicateAll n).mono
        fun _ hm => (Closing.settling hm).course)

/-- A node that was elected runs on as a leader. -/
theorem does_leadIf (hn : n.Saved) {won : Bool} (hcourse : Course event n m)
    (hcontested : Contested event n won m) :
    Does event (Course event n) (leadIf won) m fun _ _ => True := by
  cases won with
  | false => exact ⟨hcourse, trivial⟩
  | true =>
      obtain ⟨hopening, hevent, hrole, hquorum⟩ := hcontested rfl
      exact (does_becomeLeader (hcourse.saved hn) hevent hrole hquorum).mono
        fun _ hm => hopening.then_course hm

/-- Every event runs its course, or comes to a bad end, if there is a newer term for
an election. -/
theorem runs_of_hasNextTerm (hn : n.Saved) (hterm : n.HasNextTerm event) :
    Ensures (handle event) n (fun _ n' => Course event n n')
      (Halts event n) := by
  have hdoes : Does event (Course event n) (handle event) n
      fun _ _ => True := by
    rw [handle_eq]
    exact (does_contest hn hterm).andThen (fun _ hm => hm)
      fun _ _ hm hcontested => does_leadIf hn hm hcontested
  exact Ensures.mono hdoes (fun _ _ hn' => hn'.1) fun _ hfails => hfails

end

/-- Every event runs its course, or comes to a bad end. -/
theorem handle_runs (hn : n.Saved) (event : Event) :
    Ensures (handle event) n (fun _ n' => Course event n n') (Halts event n) :=
  runs_of_hasNextTerm hn fun _ => Nat.lt_succ_self _

/-- An event that is handled without an error runs its course. -/
theorem course_of_outcome (hn : n.Saved)
    (h : (outcome (handle event) n).1 = .ok ()) :
    Course event n (outcome (handle event) n).2 :=
  (handle_runs hn event).ok (eq_ok_of_outcome h)

end Node

end Consensus
