import Consensus.Proofs.Membership
import Consensus.Proofs.Node.Electing

/-!
# Following a leader is sound

A follower takes over a piece of the leader's log, or the snapshot that the
log starts from.  What is settled is in both logs, so nothing settled is ever
cut off, and what the leader knew to be settled may be applied as far as the
follower has it.

Between taking over entries and looking for membership changes among them, the
membership does not fit the log.  `refreshed` is the node with a membership
that does.
-/

namespace Consensus

namespace Node

variable {S : Scope} {ℓ : Ledger} {id : ℕ} {n n' : Node Memory}

/-! ## Looking for membership changes -/

theorem Quiet.refreshed (h : Quiet S ℓ id n n') :
    Quiet S ℓ id n.refreshed n'.refreshed where
  settings := h.settings
  replica := h.replica
  membership := by
    unfold Node.refreshed
    rw [h.membership, h.replica]
  persisted := h.persisted
  recorder := h.recorder
  peers := h.peers
  truthful := h.truthful

/-- A change that is not applied yet is noticed. -/
theorem noticed_refreshPending {log : Log} {all : List Entry} {applied : ℕ}
    (hshows : log.Shows all) (hall : Numbered all)
    (hle : log.snapshotIndex ≤ applied) (membership : Membership) :
    ∀ entry ∈ all.drop applied, entry.config?.isSome →
      ∃ change, (membership.refreshPending (log.entriesAfter applied)).pending =
        some change ∧ entry.index ≤ change.1 := by
  have hchange := (hall.drop applied).lastConfig?
  rw [← hshows.entriesAfter_eq hall hle] at hchange ⊢
  exact hchange

theorem Tracks.refreshed (h : Tracks S ℓ id n) (hall : Numbered (ℓ.log id)) :
    Tracks S ℓ id n.refreshed :=
  { h with
    noticed := noticed_refreshPending h.journal.log hall h.boundary_le _ }

/-! ## Taking over entries -/

/-- What holds of a log that took over entries of the leader of its term, up
to `reach`, where the leader knew the first `known` to be settled. -/
structure Adopts (S : Scope) (ℓ : Ledger) (id reach known : ℕ)
    (n : Node Memory) : Prop where
  sent : (ℓ.lead (ℓ.term id)).take reach <+: (ℓ.adopt id reach).log id
  commit_le : max n.standing.commitIndex known ≤
    ((ℓ.adopt id reach).log id).length
  settled : (ℓ.adopt id reach).Settled S (ℓ.term id + 1)
    (((ℓ.adopt id reach).log id).take (max n.standing.commitIndex known))
  pending : changes (((ℓ.adopt id reach).log id).drop
    (max n.standing.commitIndex known)) ≤ 1
  kept : (ℓ.log id).take n.standing.commitIndex <+:
    (ℓ.adopt id reach).log id

theorem Tracks.adopts (h : Tracks S ℓ id n) (hsound : ℓ.Sound S)
    {reach known : ℕ} {e : Election}
    (helection : ℓ.election (ℓ.term id) = some e)
    (hreach : reach ≤ (ℓ.lead (ℓ.term id)).length) (hknown : known ≤ reach)
    (hsettled : ℓ.Settled S (ℓ.term id + 1)
      ((ℓ.lead (ℓ.term id)).take known))
    (hpending : changes (((ℓ.lead (ℓ.term id)).take reach).drop known) ≤ 1) :
    Adopts S ℓ id reach known n := by
  have hgrows := (ℓ.moves_adopt id reach).toGrows
  have hlog := ℓ.adopt_log id reach
  have hsent : (ℓ.lead (ℓ.term id)).take reach <+:
      (ℓ.adopt id reach).log id := by
    rw [hlog]
    exact Ledger.isPrefix_joined _ _
  have hkept : (ℓ.log id).take n.standing.commitIndex <+:
      (ℓ.adopt id reach).log id :=
    hsound.settled_isPrefix_adopt helection h.settled (List.take_prefix _ _)
  have hcommit : n.standing.commitIndex ≤ ((ℓ.adopt id reach).log id).length := by
    have hlength := hkept.length_le
    rwa [List.length_take, Nat.min_eq_left h.commit_le] at hlength
  have hlength : ((ℓ.lead (ℓ.term id)).take reach).length = reach := by
    rw [List.length_take, Nat.min_eq_left hreach]
  have hreached : reach ≤ ((ℓ.adopt id reach).log id).length := by
    have hle := hsent.length_le
    rwa [hlength] at hle
  refine {
    sent := hsent, kept := hkept, settled := ?_, pending := ?_
    commit_le := max_le hcommit (hknown.trans hreached) }
  · rcases le_total known n.standing.commitIndex with hle | hle
    · rw [max_eq_left hle,
        take_eq_of_isPrefix hkept (by
          rw [List.length_take, Nat.min_eq_left h.commit_le]),
        List.take_take, Nat.min_self]
      exact h.settled.mono hgrows le_rfl
    · rw [max_eq_right hle, take_eq_of_isPrefix hsent (hlength.symm ▸ hknown),
        List.take_take, Nat.min_eq_left hknown]
      exact hsettled.mono hgrows le_rfl
  · rw [hlog]
    exact Ledger.changes_joined_le h.pending hpending

/-- What was applied stays what it was. -/
theorem Adopts.take_eq {reach known applied : ℕ}
    (h : Adopts S ℓ id reach known n) (hcommit : n.standing.commitIndex ≤
      (ℓ.log id).length) (happlied : applied ≤ n.standing.commitIndex) :
    ((ℓ.adopt id reach).log id).take applied = (ℓ.log id).take applied := by
  rw [take_eq_of_isPrefix h.kept (by
      rw [List.length_take, Nat.min_eq_left hcommit]
      exact happlied), List.take_take, Nat.min_eq_left happlied]

/-- The follower with the entries in its log and the commit index after them. -/
theorem Adopts.tracks {reach known : ℕ} (hadopts : Adopts S ℓ id reach known n)
    (h : Tracks S ℓ id n) (hrole : n.standing.role = .follower)
    (hall : Numbered ((ℓ.adopt id reach).log id)) {j : Journal Memory}
    (hshows : j.Shows S ((ℓ.adopt id reach).log id))
    (hsame : n.toJournal.SameBase j) :
    Tracks S (ℓ.adopt id reach) id
      ({ n.withJournal j with
        standing := { n.standing with
          commitIndex := max n.standing.commitIndex known } } : Node Memory).refreshed := by
  have hgrows := (ℓ.moves_adopt id reach).toGrows
  have htake := hadopts.take_eq h.commit_le h.applied_le
  have hboundary : j.log.snapshotIndex ≤ n.standing.lastApplied :=
    hsame.boundary.le.trans h.boundary_le
  exact { h with
    journal := hshows
    saved := hsame.hardState.trans h.saved
    boundary_le := hboundary
    applied_le := h.applied_le.trans (le_max_left _ _)
    commit_le := hadopts.commit_le
    settled := hadopts.settled
    pending := hadopts.pending
    record := h.record.trans (congrArg recordAfter htake.symm)
    members := h.members.imp_left fun hexact =>
      hexact.trans (congrArg (membersAfter S.members) htake.symm)
    noticed := noticed_refreshPending hshows.log hall hboundary _
    candidate := fun hcandidate => by
      have hnot : n.standing.role = .candidate := hcandidate
      rw [hrole] at hnot
      exact absurd hnot (by simp)
    leader := fun hleader => by
      have hnot : n.standing.role = .leader := hleader
      rw [hrole] at hnot
      exact absurd hnot (by simp)
    truthful := h.truthful.mono hgrows le_rfl }

/-! ## Accepting a leader -/

/-- Following leaves everything alone that matters. -/
structure Follows (S : Scope) (ℓ : Ledger) (id term leader : ℕ)
    (n : Node Memory) : Prop where
  tracks : Tracks S ℓ id (n.mapStanding (following · term leader))
  role : (following n.standing term leader).role = .follower
  commit : (following n.standing term leader).commitIndex =
    n.standing.commitIndex
  applied : (following n.standing term leader).lastApplied =
    n.standing.lastApplied
  hardState : (following n.standing term leader).hardState =
    n.standing.hardState

theorem Tracks.follows (h : Tracks S ℓ id n) {term : ℕ}
    (hterm : term ≤ n.standing.currentTerm) (leader : ℕ) :
    Follows S ℓ id term leader n := by
  obtain ⟨votes, heq⟩ := following_eq hterm leader
  refine { tracks := ?_, role := ?_, commit := ?_, applied := ?_, hardState := ?_ }
  · refine h.withStanding ?_ ?_ ?_ ?_ (Or.inl ?_) <;> simp only [heq]
  · rw [heq]
  · rw [heq]
  · rw [heq]
  · rw [heq]
    rfl

theorem Follows.ready {term leader : ℕ} (h : Follows S ℓ id term leader n)
    (hsettled : Node.Settled n) :
    Ready S ℓ id (n.mapStanding (following · term leader)) where
  tracks := h.tracks
  settled := {
    applied := (h.applied.trans hsettled.applied).trans h.commit.symm
    persisted := hsettled.persisted.trans h.hardState.symm }

/-! ## Answering an append request -/

/-- The replica has answered an append request. -/
structure Answered (S : Scope) (ℓ : Ledger) (id commit : ℕ)
    (n n' : Node Memory) : Prop where
  tracks : Tracks S ℓ id n'.refreshed
  settings : n'.settings = n.settings
  commit : n'.standing.commitIndex = commit
  boundary : n'.log.snapshotIndex = n.log.snapshotIndex
  role : n'.standing.lastApplied < n'.standing.commitIndex →
    n'.standing.role ≠ .candidate

theorem Ready.answered (h : Ready S ℓ id n) (hall : Numbered (ℓ.log id)) :
    Answered S ℓ id n.standing.commitIndex n n where
  tracks := h.tracks.refreshed hall
  settings := rfl
  commit := rfl
  boundary := rfl
  role hlt := absurd h.settled.applied hlt.ne

theorem ensures_onReplica {α : Type} {act : Replica.Act Memory α}
    {Q : α → Node Memory → Prop} {E : Node Memory → Prop}
    (h : Ensures act n.toReplica (fun a r => Q a { n with toReplica := r })
      fun r => E { n with toReplica := r }) : Ensures (onReplica act) n Q E :=
  Ensures.onPart h

/-- A request of an earlier term is refused. -/
theorem Ready.answerAppend_of_lt (h : Ready S ℓ id n)
    (hall : Numbered (ℓ.log id)) {request : AppendRequest}
    (hlt : request.term < n.standing.currentTerm) :
    Ensures (onReplica (Replica.answerAppend request)) n
      (fun reply n' => Answered S ℓ id n.standing.commitIndex n n' ∧
        reply.success = false)
      fun _ => False := by
  have hobserve := observeTerm_of_le hlt.le
  refine ensures_onReplica ?_
  unfold Replica.answerAppend Replica.modifyStanding
  rw [Ensures.modify_bind_iff, Ensures.get_bind_iff]
  simp only [hobserve]
  refine Ensures.ite (fun _ => ?_) fun hnot => absurd hlt hnot
  exact ⟨h.answered hall, rfl⟩

/-- So is one that does not fit the log. -/
theorem Ready.answerAppend_of_mismatch (h : Ready S ℓ id n)
    (hall : Numbered (ℓ.log id)) {request : AppendRequest}
    (hterm : request.term = n.standing.currentTerm)
    (hnot : n.log.matchesAt request.prevIndex request.prevTerm = false) :
    Ensures (onReplica (Replica.answerAppend request)) n
      (fun reply n' => Answered S ℓ id n.standing.commitIndex n n' ∧
        reply.success = false)
      fun _ => False := by
  have hobserve := observeTerm_of_le hterm.le
  have hfollows := h.tracks.follows hterm.le request.leader
  have hanswered := (hfollows.ready h.settled).answered hall
  refine ensures_onReplica ?_
  unfold Replica.answerAppend Replica.modifyStanding
  rw [Ensures.modify_bind_iff, Ensures.get_bind_iff]
  simp only [hobserve]
  refine Ensures.ite (fun hlt => absurd hterm hlt.ne) fun _ => ?_
  rw [Ensures.modify_bind_iff]
  refine Ensures.ite (fun _ => ?_) fun hmatch => absurd hnot (by simpa using hmatch)
  exact ⟨⟨hanswered.tracks, rfl, hfollows.commit, rfl, hanswered.role⟩, rfl⟩

/-- What a leader sent is the first part of its log. -/
theorem entries_sent {request : AppendRequest} (hbacked : request.Backed S ℓ) :
    ((ℓ.lead request.term).take request.reach).length = request.reach := by
  rw [List.length_take, Nat.min_eq_left hbacked.reach_le]

/-- The follower has what the request builds on. -/
theorem Tracks.take_prevIndex (h : Tracks S ℓ id n) (hsound : ℓ.Sound S)
    {request : AppendRequest} (hbacked : request.Backed S ℓ)
    (hmatch : n.log.matchesAt request.prevIndex request.prevTerm = true)
    (hbelow : ∀ k, k ≤ n.log.snapshotIndex → k ≤ request.reach →
      (ℓ.log id).take k = ((ℓ.lead request.term).take request.reach).take k) :
    request.prevIndex ≤ (ℓ.log id).length ∧
      (ℓ.log id).take request.prevIndex =
        ((ℓ.lead request.term).take request.reach).take request.prevIndex := by
  have hprev : request.prevIndex ≤ request.reach := Nat.le_add_right _ _
  have hboundary := h.boundary_le_length
  unfold Log.matchesAt at hmatch
  rw [Bool.or_eq_true, decide_eq_true_eq, decide_eq_true_eq] at hmatch
  rcases hmatch with hlt | hterm
  · exact ⟨hlt.le.trans hboundary, hbelow _ hlt.le hprev⟩
  · have hown := h.journal.log.termAt?_eq_some hterm
    have hsent : termAt ((ℓ.lead request.term).take request.reach)
        request.prevIndex = some request.prevTerm := by
      rw [← termAt_eq_of_isPrefix (List.take_prefix request.reach _)
        ((entries_sent hbacked).symm ▸ hprev)]
      exact hbacked.prevTerm
    have hagree := (hsound.node id).grounded.agree
      ((hsound.lead request.term).grounded.of_isPrefix
        (List.take_prefix request.reach _))
    exact ⟨termAt_isSome_iff.mp (by simp [hown]), hagree _ _ hown hsent⟩

/-- What a follower compacted is in the log of every leader that it follows. -/
theorem Tracks.take_below (h : Tracks S ℓ id n) (hsound : ℓ.Sound S)
    {term : ℕ} {e : Election} (hterm : term = ℓ.term id)
    (helection : ℓ.election term = some e) {reach k : ℕ}
    (hk : k ≤ n.standing.lastApplied) (hreach : k ≤ reach) :
    (ℓ.log id).take k = ((ℓ.lead term).take reach).take k := by
  subst hterm
  have hprefix := hsound.settled_isPrefix_lead h.applied_settled helection
  have hlength : k ≤ ((ℓ.log id).take n.standing.lastApplied).length := by
    rw [List.length_take, Nat.min_eq_left h.applied_le_length]
    exact hk
  rw [List.take_take, Nat.min_eq_left hreach,
    take_eq_of_isPrefix hprefix hlength, List.take_take, Nat.min_eq_left hk]

/-- A request of the current term may be taken over. -/
theorem Tracks.adopts_sent (h : Tracks S ℓ id n) (hsound : ℓ.Sound S)
    {request : AppendRequest} (hbacked : request.Backed S ℓ)
    (hterm : request.term = ℓ.term id) :
    Adopts S ℓ id request.reach (min request.leaderCommit request.reach) n := by
  obtain ⟨e, helection⟩ := hbacked.elected
  have hlength := entries_sent hbacked
  have hreach := hbacked.reach_le
  have hsettled : ℓ.Settled S (request.term + 1) ((ℓ.lead request.term).take
      (min request.leaderCommit request.reach)) :=
    hbacked.settled.of_isPrefix (List.take_prefix_take_left (min_le_left _ _))
  have hpending : changes (((ℓ.lead request.term).take request.reach).drop
      (min request.leaderCommit request.reach)) ≤ 1 := by
    rcases le_total request.leaderCommit request.reach with hle | hle
    · rw [min_eq_left hle]
      exact hbacked.pending
    · rw [min_eq_right hle, List.drop_eq_nil_of_le hlength.le]
      exact Nat.zero_le _
  rw [hterm] at helection hreach hsettled hpending
  exact h.adopts hsound helection hreach (min_le_right _ _) hsettled hpending

/-- The journal takes over what the request carries. -/
theorem Tracks.appendFromLeader (h : Tracks S ℓ id n) (hsound : ℓ.Sound S)
    {request : AppendRequest} (hbacked : request.Backed S ℓ)
    (hterm : request.term = ℓ.term id)
    (hmatch : n.log.matchesAt request.prevIndex request.prevTerm = true) :
    Ensures (Journal.appendFromLeader request.prevIndex request.entries)
      n.toJournal
      (fun index j => index = request.reach ∧
        j.Shows S ((ℓ.adopt id request.reach).log id) ∧ n.toJournal.SameBase j)
      fun _ => False := by
  obtain ⟨e, helection⟩ := hbacked.elected
  have hlength := entries_sent hbacked
  have hprev : request.prevIndex ≤ request.reach := Nat.le_add_right _ _
  have hsent : (ℓ.lead request.term).take request.reach <+:
      ℓ.lead request.term := List.take_prefix _ _
  have hall := hsound.numbered (hsound.node id).grounded
  have hbelow : ∀ k, k ≤ n.log.snapshotIndex → k ≤ request.reach →
      (ℓ.log id).take k = ((ℓ.lead request.term).take request.reach).take k :=
    fun k hk => h.take_below hsound hterm helection (hk.trans h.boundary_le)
  obtain ⟨hheld, hsame⟩ := h.take_prevIndex hsound hbacked hmatch hbelow
  have hjournal := h.journal.appendFromLeader hall
    ((hsound.lead request.term).numbered.of_isPrefix hsent)
    ((hsound.node id).grounded.agree
      ((hsound.lead request.term).grounded.of_isPrefix hsent))
    (fun k hk hlen => hbelow k hk (hlength ▸ hlen)) hheld
    (hlength.symm ▸ hprev) hsame
  rw [← hbacked.entries, hlength] at hjournal
  rw [ℓ.adopt_log, ← hterm]
  exact hjournal

/-- A request that fits is taken over. -/
theorem Ready.answerAppend_of_match (h : Ready S ℓ id n) (hsound : ℓ.Sound S)
    {request : AppendRequest} (hbacked : request.Backed S ℓ)
    (hterm : request.term = n.standing.currentTerm)
    (hmatch : n.log.matchesAt request.prevIndex request.prevTerm = true)
    (hall : Numbered ((ℓ.adopt id request.reach).log id)) :
    Ensures (onReplica (Replica.answerAppend request)) n
      (fun _ n' => Answered S (ℓ.adopt id request.reach) id
        (max n.standing.commitIndex (min request.leaderCommit request.reach))
        n n')
      fun _ => False := by
  have hobserve := observeTerm_of_le hterm.le
  have hcurrent : request.term = ℓ.term id := hterm.trans h.tracks.term
  have hfollows := h.tracks.follows hterm.le request.leader
  have hadopts := hfollows.tracks.adopts_sent hsound hbacked hcurrent
  have hjournal :=
    hfollows.tracks.appendFromLeader hsound hbacked hcurrent hmatch
  refine ensures_onReplica ?_
  unfold Replica.answerAppend Replica.modifyStanding
  rw [Ensures.modify_bind_iff, Ensures.get_bind_iff]
  simp only [hobserve]
  refine Ensures.ite (fun hlt => absurd hterm hlt.ne) fun _ => ?_
  rw [Ensures.modify_bind_iff]
  refine Ensures.ite (fun hnot => absurd hmatch (by simpa using hnot)) fun _ => ?_
  refine Ensures.bind (Ensures.onPart (hjournal.imp ?_))
  rintro index j ⟨rfl, hshows, hbase⟩
  rw [Ensures.modify_bind_iff, Ensures.pure_iff]
  exact {
    tracks := hadopts.tracks hfollows.tracks hfollows.role hall hshows hbase
    settings := rfl
    commit := congrArg (max · (min request.leaderCommit request.reach))
      hfollows.commit
    boundary := hbase.boundary
    role := fun _ hcandidate =>
      absurd (hfollows.role.symm.trans hcandidate) (by simp) }

/-! ## Handling an append request -/

/-- What follows the answer. -/
def settleAppend {τ : Type} [Storage τ] (before : Standing) (term : ℕ)
    (reply : AppendReply) : Act τ AppendReply := do
  Node.persist
  modify (·.afterRoleChange before.role)
  if before.currentTerm ≤ term then
    modify (·.emit .resetElectionTimer)
  modify Node.refreshed
  Node.applyCommitted
  return reply

theorem ensures_refresh {commit boundary : ℕ} {given : Settings}
    (h : Tracks S ℓ id n.refreshed) (hall : Numbered (ℓ.log id))
    (hpersisted : n.persisted = n.standing.hardState)
    (hsettings : n.settings = given) (hcommit : n.standing.commitIndex = commit)
    (hboundary : n.log.snapshotIndex = boundary)
    (hrole : n.standing.lastApplied < n.standing.commitIndex →
      n.standing.role ≠ .candidate) (reply : AppendReply) :
    Ensures (do
      modify Node.refreshed
      Node.applyCommitted
      return reply : Act Memory AppendReply) n
      (fun answer n' => Rests S ℓ id given commit boundary n' ∧ answer = reply)
      fun _ => False := by
  subst hsettings hcommit hboundary
  rw [Ensures.modify_bind_iff]
  refine (h.applyCommitted hall hpersisted hrole).andThen ?_
  rintro - n' hn'
  exact ⟨hn'.rests, rfl⟩

theorem Answered.settle {commit : ℕ} (h : Answered S ℓ id commit n n')
    (hall : Numbered (ℓ.log id)) (before : Standing) (term : ℕ)
    (reply : AppendReply) :
    Ensures (settleAppend before term reply) n'
      (fun answer n'' => Rests S ℓ id n.settings commit n.log.snapshotIndex n'' ∧
        answer = reply)
      fun _ => False := by
  have hquiet : Quiet S ℓ id n'.stored
      (n'.stored.afterRoleChange before.role) := quiet_afterRoleChange _
  have hrefresh : ∀ {m : Node Memory}, Quiet S ℓ id n'.stored m →
      Ensures (do
        modify Node.refreshed
        Node.applyCommitted
        return reply : Act Memory AppendReply) m
        (fun answer n'' =>
          Rests S ℓ id n.settings commit n.log.snapshotIndex n'' ∧
            answer = reply)
        fun _ => False := by
    intro m hm
    have htracks : Tracks S ℓ id n'.stored.refreshed := h.tracks.stored
    have hstanding : m.standing = n'.standing := hm.standing
    refine ensures_refresh (htracks.quiet hm.refreshed) hall ?_ ?_ ?_ ?_ ?_ reply
    · rw [hm.persisted, hstanding]
      rfl
    · exact hm.settings.trans h.settings
    · rw [hstanding]
      exact h.commit
    · rw [hm.replica]
      exact h.boundary
    · rw [hstanding]
      exact h.role
  unfold settleAppend
  refine Ensures.bind_of_ok
    (persist_eq h.tracks.journal.disk.clean h.tracks.saved) ?_
  rw [Ensures.modify_bind_iff]
  refine Ensures.ite (fun _ => ?_) fun _ => hrefresh hquiet
  rw [Ensures.modify_bind_iff]
  exact hrefresh (hquiet.trans (quiet_emit trivial))

/-- Answering, and what follows. -/
def respondAppend {τ : Type} [Storage τ] (before : Standing)
    (request : AppendRequest) : Act τ AppendReply := do
  let reply ← onReplica (Replica.answerAppend request)
  settleAppend before request.term reply

theorem handled_respondAppend (h : Ready S ℓ id n) (hsound : ℓ.Sound S)
    (before : Standing) {request : AppendRequest} (hbacked : request.Backed S ℓ)
    (hterm : request.term ≤ n.standing.currentTerm) :
    Handled S ℓ id n (respondAppend before request) n.log.snapshotIndex
      (fun ℓ' reply => reply.success = true →
        request.reach ≤ ℓ'.held id request.term) False := by
  have hall := hsound.numbered (hsound.node id).grounded
  by_cases htaken : request.term = n.standing.currentTerm ∧
      n.log.matchesAt request.prevIndex request.prevTerm = true
  · obtain ⟨hsame, hmatch⟩ := htaken
    have hcurrent : request.term = ℓ.term id := hsame.trans h.tracks.term
    obtain ⟨e, helection⟩ := hbacked.elected
    have hsound' : (ℓ.adopt id request.reach).Sound S :=
      hsound.adopt (hcurrent ▸ helection) (hcurrent ▸ hbacked.reach_le)
    have hall' := hsound'.numbered (hsound'.node id).grounded
    have hheld : request.reach ≤
        (ℓ.adopt id request.reach).held id request.term := by
      rw [hcurrent, ℓ.adopt_held]
      exact le_max_right _ _
    refine ⟨_, max n.standing.commitIndex
      (min request.leaderCommit request.reach),
      ℓ.moves_adopt id request.reach, hsound', fun threshold => ?_⟩
    refine Ensures.andThen_of_succeeds
      ((h.withThreshold threshold).answerAppend_of_match hsound hbacked hsame
        hmatch hall') fun reply m hm => ?_
    exact (hm.settle hall' before request.term reply).mono
      (fun _ m' hm' => ⟨hm'.1, fun _ => hheld⟩) fun _ he => he.elim
  · refine ⟨ℓ, n.standing.commitIndex, Ledger.Moves.refl id ℓ, hsound,
      fun threshold => ?_⟩
    have hready := h.withThreshold threshold
    have hrefused : Ensures (onReplica (Replica.answerAppend request))
        (n.withThreshold threshold)
        (fun reply m => Answered S ℓ id n.standing.commitIndex
          (n.withThreshold threshold) m ∧ reply.success = false)
        fun _ => False := by
      rcases hterm.lt_or_eq with hlt | hsame
      · exact hready.answerAppend_of_lt hall hlt
      · refine hready.answerAppend_of_mismatch hall hsame ?_
        exact eq_false_of_ne_true fun hmatch => htaken ⟨hsame, hmatch⟩
    refine Ensures.andThen_of_succeeds hrefused ?_
    rintro reply m ⟨hm, hfailed⟩
    refine (hm.settle hall before request.term reply).mono
      (fun answer m' hm' => ⟨hm'.1, fun hsuccess => ?_⟩) fun _ he => he.elim
    rw [hm'.2, hfailed] at hsuccess
    exact absurd hsuccess (by simp)

/-- The node after it heard of a term and stored it. -/
def observed (n : Node Memory) (term : ℕ) : Node Memory :=
  (n.mapStanding (·.observeTerm term)).stored

theorem Ready.observed (h : Ready S ℓ id n) (hsound : ℓ.Sound S) (term : ℕ) :
    Ready S (ℓ.observe id term) id (n.observed term) where
  tracks := (h.tracks.observeTerm hsound term).stored
  settled := {
    applied := by
      change (n.standing.observeTerm term).lastApplied =
        (n.standing.observeTerm term).commitIndex
      rw [lastApplied_observeTerm, commitIndex_observeTerm, h.settled.applied]
    persisted := rfl }

theorem Ready.observed_of_le (h : Ready S ℓ id n) {term : ℕ}
    (hle : term ≤ n.standing.currentTerm) : n.observed term = n := by
  have hobserve : n.mapStanding (·.observeTerm term) = n := by
    unfold mapStanding
    simp only [observeTerm_of_le hle]
  rw [Node.observed, hobserve]
  exact stored_eq_self h.tracks.saved h.settled.persisted

theorem Ready.handled_appendRequest (h : Ready S ℓ id n) (hsound : ℓ.Sound S)
    {request : AppendRequest} (hbacked : request.Backed S ℓ) :
    Handled S ℓ id n (Node.handleAppendRequest request) n.log.snapshotIndex
      (fun ℓ' reply => reply.success = true →
        request.reach ≤ ℓ'.held id request.term) False := by
  have hmoves := ℓ.moves_observe id request.term
  have hready := h.observed hsound request.term
  refine (handled_respondAppend hready (hsound.observe id request.term)
    n.standing (hbacked.mono hmoves.toGrows)
    (le_observeTerm _ _)).of_reduction hmoves rfl
      (lastApplied_observeTerm _ _) fun threshold ℓ' commit hrun => ?_
  unfold Node.handleAppendRequest
  rw [Ensures.get_bind_iff]
  refine Ensures.ite (fun hlt => ?_) fun hle => ?_
  · have htracks := (h.withThreshold threshold).tracks.observeTerm hsound
      request.term
    rw [Ensures.modify_bind_iff]
    exact Ensures.bind_of_ok htracks.persist_eq hrun
  · rw [h.observed_of_le (not_lt.mp hle)] at hrun
    exact hrun

end Node

end Consensus
