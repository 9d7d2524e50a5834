import Consensus.Node.Election
import Consensus.Node.Requests
import Consensus.Proofs.Node.Leading

/-!
# Elections are sound

A node stands for election with its whole log and with what it knows to be
committed, and the membership that it counts votes by is the one in force after
that.  It votes for a candidate whose log is as complete as its own.  A
candidate that counts a majority wins its term, because nobody else can have
won it, and what it appends first is an entry of its own.
-/

namespace Consensus

namespace Ledger

variable {S : Scope} {ℓ : Ledger} {node : ℕ}

/-- The node wins the election of its term, and holds the whole log that it
starts with. -/
def win (ℓ : Ledger) (node : ℕ) (voters : NodeSet) (c : Candidacy) : Ledger :=
  (ℓ.elect node voters c).adopt node c.log.length

theorem win_election (ℓ : Ledger) (node : ℕ) (voters : NodeSet) (c : Candidacy) :
    (ℓ.win node voters c).election (ℓ.term node) = some ⟨node, voters, c⟩ :=
  elect_election ℓ node voters c

theorem win_lead (ℓ : Ledger) (node : ℕ) (voters : NodeSet) (c : Candidacy) :
    (ℓ.win node voters c).lead (ℓ.term node) = c.log :=
  elect_lead ℓ node voters c

theorem win_held_le (ℓ : Ledger) (node : ℕ) (voters : NodeSet) (c : Candidacy) :
    c.log.length ≤ (ℓ.win node voters c).held node (ℓ.term node) := by
  have hheld := (ℓ.elect node voters c).adopt_held node c.log.length
  exact (le_max_right _ _).trans hheld.ge

theorem win_log {voters : NodeSet} {c : Candidacy} (hlog : c.log = ℓ.log node) :
    (ℓ.win node voters c).log node = ℓ.log node := by
  have hsent : ((ℓ.elect node voters c).lead (ℓ.term node)).take c.log.length =
      ℓ.log node := by
    rw [elect_lead, List.take_length, hlog]
  unfold win
  rw [adopt_log]
  change joined (ℓ.log node) (List.take _ ((ℓ.elect node voters c).lead
    (ℓ.term node))) = ℓ.log node
  rw [hsent, joined, if_pos List.prefix_rfl]

theorem moves_win (hsound : Sound S ℓ) {voters : NodeSet} {c : Candidacy}
    (hnone : ℓ.election (ℓ.term node) = none) :
    Moves node ℓ (ℓ.win node voters c) :=
  (moves_elect hsound hnone).trans (moves_adopt _ node _)

theorem Sound.win (hsound : Sound S ℓ) {voters : NodeSet} {c : Candidacy}
    (hnone : ℓ.election (ℓ.term node) = none)
    (hstood : ℓ.candidacy node (ℓ.term node) = some c)
    (hquorum : (membersAfter S.members
      (c.log.take c.known)).hasQuorum voters = true)
    (hvotes : ∀ id ∈ voters, ℓ.vote id (ℓ.term node) = some node) :
    Sound S (ℓ.win node voters c) :=
  (hsound.elect hnone hstood hquorum hvotes).adopt
    (elect_election ℓ node voters c)
    (congrArg List.length (elect_lead ℓ node voters c)).ge

end Ledger

namespace Node

variable {S : Scope} {ℓ : Ledger} {id : ℕ} {n : Node Memory}

/-! ## Winning -/

/-- A candidate without peers that counts a majority becomes the leader. -/
theorem Tracks.win (h : Tracks S ℓ id n) (hsound : ℓ.Sound S)
    (hrole : n.standing.role = .candidate)
    (happlied : n.standing.lastApplied = n.standing.commitIndex)
    (hpeers : n.peers = ∅)
    (hnone : ℓ.election (ℓ.term id) = none) :
    Tracks S (ℓ.win id n.standing.votes ⟨ℓ.log id, n.standing.commitIndex⟩) id
      (n.mapStanding (·.becomeLeader n.self)) := by
  have hcandidate := h.candidate hrole
  have hgrows : ℓ.Grows (ℓ.win id n.standing.votes
      ⟨ℓ.log id, n.standing.commitIndex⟩) :=
    (Ledger.moves_win hsound hnone).toGrows
  have hlog : (ℓ.win id n.standing.votes
      ⟨ℓ.log id, n.standing.commitIndex⟩).log id = ℓ.log id :=
    Ledger.win_log rfl
  exact { h with
    journal := by rw [hlog]; exact h.journal
    commit_le := by rw [hlog]; exact h.commit_le
    settled := by rw [hlog]; exact h.settled.mono hgrows le_rfl
    pending := by rw [hlog]; exact h.pending
    record := by rw [hlog]; exact h.record
    members := by rw [hlog]; exact h.members
    noticed := by rw [hlog]; exact h.noticed
    candidate := fun hcandidate => absurd hcandidate (by
      change Role.leader ≠ .candidate
      simp)
    leader := fun _ => {
      elected := ⟨_, ℓ.win_election id _ _, rfl⟩
      lead := by rw [hlog]; exact ℓ.win_lead id _ _
      held := by
        rw [hlog]
        exact ℓ.win_held_le id n.standing.votes
          ⟨ℓ.log id, n.standing.commitIndex⟩
      exact := by
        rw [hlog]
        change n.membership.committed =
          membersAfter S.members (List.take n.standing.lastApplied _)
        rw [happlied]
        exact hcandidate.exact
      peers := fun peer p hp => by
        have hnothing : n.peers.get? peer = some p := hp
        rw [hpeers, Table.get?_empty] at hnothing
        exact absurd hnothing (by simp) }
    truthful := h.truthful.mono hgrows le_rfl }

/-- The node as it starts to lead. -/
def leading (n : Node Memory) : Node Memory :=
  let n := n.mapStanding (·.becomeLeader n.self)
  n.stopReplication.syncPeers n.targets (n.log.lastIndex + 1)

theorem Ready.handled_becomeLeader (h : Ready S ℓ id n) (hsound : ℓ.Sound S)
    (hrole : n.standing.role = .candidate)
    (hquorum : n.membership.committed.hasQuorum n.standing.votes = true) :
    Handled S ℓ id n Node.becomeLeader n.log.snapshotIndex (fun _ _ => True)
      False := by
  have hcandidate := h.tracks.candidate hrole
  rw [hcandidate.exact] at hquorum
  have hnone : ℓ.election (ℓ.term id) = none := by
    cases helection : ℓ.election (ℓ.term id) with
    | none => rfl
    | some e =>
        exact absurd (hsound.leader_unique hcandidate.stood hquorum
          hcandidate.votes helection) (hcandidate.fresh e helection)
  let ℓ₁ := ℓ.win id n.standing.votes ⟨ℓ.log id, n.standing.commitIndex⟩
  have hmoves : ℓ.Moves id ℓ₁ := Ledger.moves_win hsound hnone
  have hsound₁ : ℓ₁.Sound S :=
    hsound.win hnone hcandidate.stood hquorum hcandidate.votes
  have hstopped := h.quiet quiet_stopReplication
  have hwon : Tracks S ℓ₁ id
      (n.stopReplication.mapStanding (·.becomeLeader n.self)) :=
    hstopped.tracks.win hsound hrole h.settled.applied rfl hnone
  have hleading : Tracks S ℓ₁ id n.leading :=
    hwon.quiet (quiet_syncPeers _ (Nat.succ_pos _))
  have hleader := hleading.leader rfl
  have hconfig : (ℓ₁.nextEntry id .noop).config? = none := rfl
  let ℓ₂ := ℓ₁.append id (ℓ₁.nextEntry id .noop)
  have hsound₂ : ℓ₂.Sound S :=
    hleader.sound_append hsound₁ (permits_of_config?_eq_none hconfig)
  have hall₁ := hsound₁.numbered (hsound₁.node id).grounded
  have hall₂ := hsound₂.numbered (hsound₂.node id).grounded
  refine ⟨ℓ₂, commitReached ℓ₂ id n.membership.committed n.leading.peers
    n.standing.commitIndex, hmoves.trans (hleader.moves_append hsound₁ _),
    hsound₂, fun threshold => ?_⟩
  have hthreshold := hleading.withThreshold threshold
  unfold Node.becomeLeader
  simp only [Ensures.modify_bind_iff, Ensures.get_bind_iff]
  refine (hthreshold.ensures_append hall₁ .noop).andThen_of_succeeds ?_
  rintro - n' ⟨-, j, rfl, hshows, hsame⟩
  have hready : Ready S ℓ₂ id
      ((n.leading.withThreshold threshold).withJournal j) :=
    ⟨hthreshold.append_of_config?_eq_none hsound₁ rfl hshows hsame hconfig,
      h.settled.applied, h.settled.persisted⟩
  have hboundary : j.log.snapshotIndex = n.log.snapshotIndex := hsame.boundary
  rw [← hboundary]
  exact (hready.spread hall₂ rfl).mono (fun _ m hm => ⟨hm, trivial⟩)
    fun _ he => he.elim

/-! ## Standing -/

/-- A node that is a member stands in the next term. -/
theorem Ready.stand (h : Ready S ℓ id n) (hsound : ℓ.Sound S)
    (hmember : n.self ∈ n.membership.committed) :
    Tracks S (ℓ.stand id n.standing.commitIndex) id
      (n.mapStanding (·.becomeCandidate n.self)) := by
  have htracks := h.tracks
  have hgrows :=
    (Ledger.moves_stand hsound id n.standing.commitIndex).toGrows
  have hterm : (ℓ.stand id n.standing.commitIndex).term id = ℓ.term id + 1 := by
    simp [Ledger.stand]
  have hvote := ℓ.stand_vote id n.standing.commitIndex
  exact { htracks with
    term := by
      rw [hterm, ← htracks.term]
      rfl
    vote := by
      rw [hterm, hvote, ← htracks.self]
      rfl
    settled := by
      rw [hterm]
      exact htracks.settled.mono hgrows (Nat.le_succ _)
    candidate := fun _ => {
      stood := by
        rw [hterm]
        exact ℓ.stand_candidacy id n.standing.commitIndex
      exact := by
        rcases htracks.members with hexact | hempty
        · rw [h.settled.applied] at hexact
          exact hexact
        · rw [hempty] at hmember
          exact absurd hmember (NodeSet.not_mem_empty _)
      votes := fun voter hvoter => by
        have hself : voter ∈ (∅ : NodeSet).insert n.self := hvoter
        rw [NodeSet.mem_insert] at hself
        rcases hself with rfl | hnone
        · rw [hterm, htracks.self]
          exact hvote
        · exact absurd hnone (NodeSet.not_mem_empty _)
      fresh := fun e he hleader => by
        -- whoever led that term had entered it
        rw [hterm] at he
        have hstood := (hsound.election _ e he).stood
        have hle := (hsound.candidacy _ _ _ hstood).term_le
        rw [hleader] at hle
        omega }
    leader := fun hleader => absurd hleader (by
      change Role.candidate ≠ .leader
      simp)
    truthful := htracks.truthful.mono hgrows le_rfl }

/-- The node as it stands, with term and vote stored. -/
def standingForElection (n : Node Memory) : Node Memory :=
  ((n.mapStanding (·.becomeCandidate n.self)).stored.afterRoleChange
    n.standing.role).emit .resetElectionTimer

theorem quiet_standingForElection (n : Node Memory) :
    Quiet S ℓ id (n.mapStanding (·.becomeCandidate n.self)).stored
      n.standingForElection :=
  (quiet_afterRoleChange _).trans (quiet_emit trivial)

theorem afterRoleChange_withThreshold (n : Node Memory) (threshold : ℕ)
    (before : Role) :
    (n.withThreshold threshold).afterRoleChange before =
      (n.afterRoleChange before).withThreshold threshold := by
  unfold afterRoleChange
  by_cases hstays : before ≠ .leader ∨ n.standing.role = .leader
  · rw [if_pos hstays]
    exact if_pos hstays
  · rw [if_neg hstays]
    exact if_neg hstays

theorem standingForElection_withThreshold (n : Node Memory) (threshold : ℕ) :
    (n.withThreshold threshold).standingForElection =
      n.standingForElection.withThreshold threshold :=
  congrArg (·.emit .resetElectionTimer)
    (afterRoleChange_withThreshold
      (n.mapStanding (·.becomeCandidate n.self)).stored threshold
        n.standing.role)

theorem Ready.standingForElection (h : Ready S ℓ id n) (hsound : ℓ.Sound S)
    (hmember : n.self ∈ n.membership.committed) :
    Ready S (ℓ.stand id n.standing.commitIndex) id n.standingForElection := by
  have hready : Ready S (ℓ.stand id n.standing.commitIndex) id
      (n.mapStanding (·.becomeCandidate n.self)).stored :=
    ⟨(h.stand hsound hmember).stored, h.settled.applied, rfl⟩
  exact hready.quiet (quiet_standingForElection n)

theorem Tracks.backed_voteRequest (h : Tracks S ℓ id n)
    (hall : Numbered (ℓ.log id)) (hrole : n.standing.role = .candidate) :
    n.voteRequest.candidate = id ∧ n.voteRequest.Backed ℓ := by
  have hstood : ℓ.candidacy n.self n.standing.currentTerm =
      some ⟨ℓ.log id, n.standing.commitIndex⟩ := by
    rw [h.self, h.term]
    exact (h.candidate hrole).stood
  exact ⟨h.self, _, hstood, h.journal.log.lastIndex_eq hall,
    h.journal.log.lastTerm_eq⟩

theorem quiet_askForVotes (h : Tracks S ℓ id n) (hall : Numbered (ℓ.log id))
    (hrole : n.standing.role = .candidate) (peers : List ℕ) :
    Quiet S ℓ id n
      (n.emitAll (peers.map fun peer => .requestVote peer n.voteRequest)) := by
  refine quiet_emitAll fun effect heffect => ?_
  obtain ⟨peer, -, rfl⟩ := List.mem_map.mp heffect
  exact h.backed_voteRequest hall hrole

/-- The end of a campaign: the candidate leads at once if its own vote is
enough, and otherwise asks for others. -/
def countOwnVote : Act Memory Unit := do
  let n ← get
  if n.membership.committed.hasQuorum n.standing.votes then
    Node.becomeLeader
  else
    let others := n.membership.committed.erase n.self
    set (n.emitAll (others.toList.map fun peer => .requestVote peer n.voteRequest))

/-- Standing never fails, and then the own vote counts. -/
theorem Ready.ensures_startElection (h : Ready S ℓ id n) (hsound : ℓ.Sound S)
    (hmember : n.self ∈ n.membership.committed) {threshold : ℕ}
    {Q : Unit → Node Memory → Prop} {E : Node Memory → Prop}
    (hrest : Ensures countOwnVote
      (n.standingForElection.withThreshold threshold) Q E) :
    Ensures Node.startElection (n.withThreshold threshold) Q E := by
  have hstand := (h.withThreshold threshold).stand hsound hmember
  rw [← standingForElection_withThreshold] at hrest
  unfold Node.startElection
  simp only [Ensures.get_bind_iff]
  refine Ensures.ite (fun hnot => absurd hmember hnot) fun _ => ?_
  rw [Ensures.modify_bind_iff]
  exact Ensures.bind_of_ok hstand.persist_eq hrest

/-- A candidate counts its own vote. -/
theorem Ready.handled_countOwnVote (h : Ready S ℓ id n) (hsound : ℓ.Sound S)
    (hrole : n.standing.role = .candidate) :
    Handled S ℓ id n countOwnVote n.log.snapshotIndex (fun _ _ => True)
      False := by
  have hall := hsound.numbered (hsound.node id).grounded
  by_cases hquorum : n.membership.committed.hasQuorum n.standing.votes = true
  · refine (h.handled_becomeLeader hsound hrole hquorum).of_reduction
      (Ledger.Moves.refl id ℓ) rfl rfl fun threshold ℓ' commit hwin => ?_
    unfold countOwnVote
    rw [Ensures.get_bind_iff]
    exact Ensures.ite (fun _ => hwin) fun hnot => absurd hquorum hnot
  · refine handled_of_rests n.standing.commitIndex hsound fun threshold => ?_
    have hready := h.withThreshold threshold
    unfold countOwnVote
    rw [Ensures.get_bind_iff]
    refine Ensures.ite (fun hyes => absurd hyes hquorum) fun _ => ?_
    exact hready.rests.quiet (quiet_askForVotes hready.tracks hall hrole _)

theorem Ready.handled_startElection (h : Ready S ℓ id n) (hsound : ℓ.Sound S) :
    Handled S ℓ id n Node.startElection n.log.snapshotIndex (fun _ _ => True)
      False := by
  by_cases hmember : n.self ∈ n.membership.committed
  · have hsound₁ : (ℓ.stand id n.standing.commitIndex).Sound S :=
      hsound.stand h.tracks.commit_le h.tracks.settled h.tracks.pending
    have hquiet : Quiet S (ℓ.stand id n.standing.commitIndex) id
        (n.mapStanding (·.becomeCandidate n.self)).stored
        n.standingForElection := quiet_standingForElection n
    have hrole : n.standingForElection.standing.role = .candidate := by
      rw [hquiet.standing]
      rfl
    have hboundary : n.standingForElection.log.snapshotIndex =
        n.log.snapshotIndex := by
      rw [hquiet.replica]
      rfl
    have hstand := h.standingForElection hsound hmember
    rw [← hboundary]
    exact (hstand.handled_countOwnVote hsound₁ hrole).of_reduction
      (Ledger.moves_stand hsound id n.standing.commitIndex) hquiet.settings
      (by rw [hquiet.standing]; rfl)
      fun threshold ℓ' commit hrest =>
        h.ensures_startElection hsound hmember hrest
  · refine handled_of_rests n.standing.commitIndex hsound fun threshold => ?_
    unfold Node.startElection
    simp only [Ensures.get_bind_iff]
    exact Ensures.ite (fun _ => (h.withThreshold threshold).rests)
      fun hnot => absurd hmember hnot

theorem Ready.handled_electionTimeout (h : Ready S ℓ id n)
    (hsound : ℓ.Sound S) :
    Handled S ℓ id n Node.handleElectionTimeout n.log.snapshotIndex
      (fun _ _ => True) False := by
  by_cases hstarts : n.standing.role ≠ .leader ∧
      n.self ∈ n.membership.committed
  · refine (h.handled_startElection hsound).of_reduction
      (Ledger.Moves.refl id ℓ) rfl rfl fun threshold ℓ' commit hstart => ?_
    unfold Node.handleElectionTimeout
    simp only [Ensures.get_bind_iff]
    refine Ensures.ite (fun hleader => absurd hleader hstarts.1) fun _ => ?_
    exact Ensures.ite (fun hnot => absurd hstarts.2 hnot) fun _ => hstart
  · refine handled_of_rests n.standing.commitIndex hsound fun threshold => ?_
    have hrests := (h.withThreshold threshold).rests
    unfold Node.handleElectionTimeout
    simp only [Ensures.get_bind_iff]
    refine Ensures.ite (fun _ => hrests) fun hrole => ?_
    exact Ensures.ite (fun _ => hrests.quiet (quiet_emit trivial))
      fun hmember => absurd ⟨hrole, not_not.mp hmember⟩ hstarts

/-! ## Counting votes -/

/-- The candidate with one more vote. -/
def votedFor (n : Node Memory) (peer : ℕ) : Node Memory :=
  n.mapStanding fun s => { s with votes := s.votes.insert peer }

theorem Tracks.votedFor (h : Tracks S ℓ id n)
    (hrole : n.standing.role = .candidate) {peer : ℕ}
    (hvote : ℓ.vote peer (ℓ.term id) = some id) :
    Tracks S ℓ id (n.votedFor peer) :=
  { h with
    candidate := fun _ => { h.candidate hrole with
      votes := fun voter hvoter => by
        have hcases : voter ∈ n.standing.votes.insert peer := hvoter
        rw [NodeSet.mem_insert] at hcases
        rcases hcases with rfl | hold
        · exact hvote
        · exact (h.candidate hrole).votes voter hold }
    leader := fun hleader => by
      have hnot : n.standing.role = .leader := hleader
      rw [hrole] at hnot
      exact absurd hnot (by simp) }

theorem Ready.handled_voteReply (h : Ready S ℓ id n) (hsound : ℓ.Sound S)
    {peer term : ℕ} {reply : VoteReply}
    (hbacked : reply.granted = true → ℓ.vote peer term = some id) :
    Handled S ℓ id n (Node.handleVoteReply peer term reply)
      n.log.snapshotIndex (fun _ _ => True) False := by
  have hrefl : ℓ.Moves id ℓ := Ledger.Moves.refl id ℓ
  by_cases hlater : n.standing.currentTerm < reply.term
  · refine (h.handled_stepDown hsound hlater).of_reduction hrefl rfl rfl
      fun threshold ℓ' commit hrun => ?_
    unfold Node.handleVoteReply
    simp only [Ensures.get_bind_iff]
    exact Ensures.ite (fun _ => hrun) fun hnot => absurd hlater hnot
  by_cases hvoid : n.standing.role ≠ .candidate ∨
      term ≠ n.standing.currentTerm ∨ (!reply.granted) = true
  · refine handled_of_rests n.standing.commitIndex hsound fun threshold => ?_
    unfold Node.handleVoteReply
    simp only [Ensures.get_bind_iff]
    refine Ensures.ite (fun hyes => absurd hyes hlater) fun _ => ?_
    exact Ensures.ite (fun _ => (h.withThreshold threshold).rests)
      fun hnot => absurd hvoid hnot
  · obtain ⟨hrole, hterm, hgranted⟩ : n.standing.role = .candidate ∧
        term = n.standing.currentTerm ∧ reply.granted = true := by
      simpa using hvoid
    have hvote : ℓ.vote peer (ℓ.term id) = some id := by
      rw [← h.tracks.term, ← hterm]
      exact hbacked hgranted
    have hready : Ready S ℓ id (n.votedFor peer) :=
      ⟨h.tracks.votedFor hrole hvote, h.settled.applied, h.settled.persisted⟩
    by_cases hquorum : (n.votedFor peer).membership.committed.hasQuorum
        (n.votedFor peer).standing.votes = true
    · refine (hready.handled_becomeLeader hsound hrole hquorum).of_reduction
        hrefl rfl rfl fun threshold ℓ' commit hrun => ?_
      unfold Node.handleVoteReply
      simp only [Ensures.get_bind_iff]
      refine Ensures.ite (fun hyes => absurd hyes hlater) fun _ => ?_
      refine Ensures.ite (fun hyes => absurd hyes hvoid) fun _ => ?_
      rw [Ensures.set_bind_iff]
      exact Ensures.ite (fun _ => hrun) fun hnot => absurd hquorum hnot
    · refine handled_of_rests n.standing.commitIndex hsound fun threshold => ?_
      unfold Node.handleVoteReply
      simp only [Ensures.get_bind_iff]
      refine Ensures.ite (fun hyes => absurd hyes hlater) fun _ => ?_
      refine Ensures.ite (fun hyes => absurd hyes hvoid) fun _ => ?_
      rw [Ensures.set_bind_iff]
      exact Ensures.ite (fun hyes => absurd hyes hquorum)
        fun _ => (hready.withThreshold threshold).rests

/-! ## Voting -/

/-- The node with its vote given. -/
def voting (n : Node Memory) (candidate : ℕ) : Node Memory :=
  n.mapStanding fun s => { s with votedFor := some candidate }

theorem Tracks.voting (h : Tracks S ℓ id n) {candidate : ℕ}
    (hfree : ∀ c, ℓ.vote id (ℓ.term id) = some c → c = candidate) :
    Tracks S (ℓ.grant id candidate) id (n.voting candidate) := by
  have hgrows := (Ledger.moves_grant hfree).toGrows
  exact { h with
    vote := by
      change some candidate = (ℓ.grant id candidate).vote id (ℓ.term id)
      simp [Ledger.grant]
    settled := h.settled.mono hgrows le_rfl
    candidate := fun hrole =>
      { (h.candidate hrole).mono hgrows rfl rfl fun _ he _ => he with }
    leader := fun hrole => (h.leader hrole).mono hgrows rfl rfl rfl
    truthful := h.truthful.mono hgrows le_rfl }

/-- The node after it answered a vote request. -/
def answering (n : Node Memory) (request : VoteRequest) : Node Memory :=
  { n with standing := (n.standing.answerVote n.log request).2 }

theorem lastApplied_answering (n : Node Memory) (request : VoteRequest) :
    (n.answering request).standing.lastApplied = n.standing.lastApplied := by
  obtain ⟨vote, heq⟩ := answerVote_eq n.standing n.log request
  unfold answering
  rw [heq]
  exact lastApplied_observeTerm n.standing request.term

theorem commitIndex_answering (n : Node Memory) (request : VoteRequest) :
    (n.answering request).standing.commitIndex = n.standing.commitIndex := by
  obtain ⟨vote, heq⟩ := answerVote_eq n.standing n.log request
  unfold answering
  rw [heq]
  exact commitIndex_observeTerm n.standing request.term

/-- The ledger knows of the vote that an answer gives. -/
theorem Tracks.answering (h : Tracks S ℓ id n) (hsound : ℓ.Sound S)
    {request : VoteRequest} (hbacked : request.Backed ℓ) :
    ∃ ℓ', ℓ.Moves id ℓ' ∧ ℓ'.Sound S ∧ Tracks S ℓ' id (n.answering request) ∧
      ((n.standing.answerVote n.log request).1.granted = true →
        ℓ'.vote id request.term = some request.candidate) := by
  have hobserved := h.observeTerm hsound request.term
  have hmoves := ℓ.moves_observe id request.term
  have hsound₁ := hsound.observe id request.term
  unfold Node.answering
  rcases answerVote_cases n.standing n.log request with
    ⟨hrefused, hstanding⟩ | ⟨-, hstanding, hterm, hfree, hfresh⟩
  · refine ⟨_, hmoves, hsound₁, ?_, ?_⟩
    · rw [hstanding]
      exact hobserved
    · rw [hrefused]
      exact fun hgranted => absurd hgranted (by simp)
  · have hcurrent : (ℓ.observe id request.term).term id = request.term := by
      rw [← hobserved.term]
      exact le_antisymm hterm (le_observeTerm _ _)
    have hvote : ∀ c, (ℓ.observe id request.term).vote id
        ((ℓ.observe id request.term).term id) = some c →
          c = request.candidate := by
      intro c hc
      rw [← hobserved.vote] at hc
      exact hfree c hc
    obtain ⟨c, hstood, hindex, hlast⟩ := hbacked.mono hmoves.toGrows
    rw [hindex, hlast, h.journal.log.isUpToDate_iff
      (hsound.numbered (hsound.node id).grounded)] at hfresh
    refine ⟨_, hmoves.trans (Ledger.moves_grant hvote),
      hsound₁.grant hvote (hcurrent.symm ▸ hstood) hfresh, ?_, fun _ => ?_⟩
    · rw [hstanding]
      exact hobserved.voting hvote
    · have hgranted : ((ℓ.observe id request.term).grant id
          request.candidate).vote id
            ((ℓ.observe id request.term).term id) = some request.candidate := by
        simp [Ledger.grant]
      rwa [hcurrent] at hgranted

/-- A vote is on the disk before it is given. -/
theorem Ready.handled_voteRequest (h : Ready S ℓ id n) (hsound : ℓ.Sound S)
    {request : VoteRequest} (hbacked : request.Backed ℓ) :
    Handled S ℓ id n (Node.handleVoteRequest request) n.log.snapshotIndex
      (fun ℓ' reply => reply.granted = true →
        ℓ'.vote id request.term = some request.candidate) False := by
  obtain ⟨ℓ', hmoves, hsound', htracks, hgranted⟩ :=
    h.tracks.answering hsound hbacked
  have happlied := lastApplied_answering n request
  have hcommit := commitIndex_answering n request
  refine ⟨ℓ', n.standing.commitIndex, hmoves, hsound', fun threshold => ?_⟩
  have hthreshold := htracks.withThreshold threshold
  have hready : Ready S ℓ' id ((n.answering request).withThreshold threshold).stored := by
    refine ⟨hthreshold.stored, ?_, rfl⟩
    exact (happlied.trans h.settled.applied).trans hcommit.symm
  have hrests : Rests S ℓ' id (n.withThreshold threshold).settings
      n.standing.commitIndex n.log.snapshotIndex
      ((n.answering request).withThreshold threshold).stored :=
    ⟨hready, rfl, hcommit, fun _ => rfl⟩
  unfold Node.handleVoteRequest
  rw [Ensures.get_bind_iff]
  refine Ensures.bind_of_ok rfl ?_
  refine Ensures.bind_of_ok hthreshold.persist_eq ?_
  rw [Ensures.modify_bind_iff]
  have hquiet : Quiet S ℓ' id
      ((n.answering request).withThreshold threshold).stored
      (((n.answering request).withThreshold threshold).stored.afterRoleChange
        n.standing.role) := quiet_afterRoleChange _
  refine Ensures.ite (fun _ => ?_) fun _ => ?_
  · rw [Ensures.modify_bind_iff, Ensures.pure_iff]
    exact ⟨(hrests.quiet hquiet).quiet (quiet_emit trivial), hgranted⟩
  · exact ⟨hrests.quiet hquiet, hgranted⟩

end Node

end Consensus
