import Consensus.Proofs.Node.Following
import Consensus.Proofs.Recorder

/-!
# Installing a snapshot is sound

A snapshot that covers nothing new is acknowledged, because what it covers is
settled and so is what the follower applied.  Any other one becomes the base of
the log, and what the log held after it stays exactly if that is what the
leader's log holds.  Only data that spells no record makes this fail.
-/

namespace Consensus.Node

variable {S : Scope} {ℓ : Ledger} {id : ℕ} {n n' : Node Memory}
  {request : InstallRequest}

/-! ## A snapshot that covers nothing new -/

/-- The follower has already what the snapshot covers. -/
theorem Tracks.adopt_of_le (h : Tracks S ℓ id n) (hsound : ℓ.Sound S)
    {e : Election} (helection : ℓ.election (ℓ.term id) = some e) {reach : ℕ}
    (hle : reach ≤ n.standing.lastApplied) :
    Tracks S (ℓ.adopt id reach) id n := by
  have hsame := h.take_below hsound rfl helection hle le_rfl
  have hsent : (ℓ.lead (ℓ.term id)).take reach <+: ℓ.log id := by
    rw [List.take_take, Nat.min_self] at hsame
    rw [← hsame]
    exact List.take_prefix _ _
  have hlog : (ℓ.adopt id reach).log id = ℓ.log id := by
    rw [ℓ.adopt_log, Ledger.joined, if_pos hsent]
  exact h.grow (ℓ.moves_adopt id reach).toGrows rfl hlog rfl
    (fun _ he _ => he) fun _ _ _ => rfl

/-! ## A snapshot that becomes the base -/

/-- The first part of the leader's log that the snapshot stands for. -/
theorem covered_length (hbacked : request.Backed S ℓ) :
    ((ℓ.lead request.term).take request.lastIncludedIndex).length =
      request.lastIncludedIndex := by
  have hle : request.lastIncludedIndex ≤ (ℓ.lead request.term).length :=
    hbacked.covers.index_le
  rw [List.length_take, Nat.min_eq_left hle]

theorem Tracks.adopts_covered (h : Tracks S ℓ id n) (hsound : ℓ.Sound S)
    (hbacked : request.Backed S ℓ) (hterm : request.term = ℓ.term id) :
    Adopts S ℓ id request.lastIncludedIndex request.lastIncludedIndex n := by
  obtain ⟨e, helection⟩ := hbacked.elected
  have hlength := covered_length hbacked
  have hreach : request.lastIncludedIndex ≤ (ℓ.lead request.term).length :=
    hbacked.covers.index_le
  have hsettled := hbacked.settled
  rw [hterm] at helection hreach hsettled hlength
  refine h.adopts hsound helection hreach le_rfl hsettled ?_
  rw [List.drop_eq_nil_of_le hlength.le]
  exact Nat.zero_le _

/-- The snapshot stands for the first entries of the log that took it over. -/
theorem Adopts.covers (h : Adopts S ℓ id request.lastIncludedIndex
      request.lastIncludedIndex n) (hbacked : request.Backed S ℓ)
    (hterm : request.term = ℓ.term id) :
    request.snapshot.Covers S
      ((ℓ.adopt id request.lastIncludedIndex).log id) := by
  have hsent := h.sent
  rw [← hterm] at hsent
  exact hbacked.covers.of_take_isPrefix hsent

/-- A log that agrees with the snapshot at its end has all that it covers. -/
theorem Tracks.covered_isPrefix_iff (h : Tracks S ℓ id n) (hsound : ℓ.Sound S)
    (hbacked : request.Backed S ℓ)
    (hlt : n.standing.lastApplied < request.lastIncludedIndex) :
    n.log.termAt? request.lastIncludedIndex = some request.lastIncludedTerm ↔
      (ℓ.lead request.term).take request.lastIncludedIndex <+: ℓ.log id := by
  have hlength := covered_length hbacked
  have hboundary : n.log.snapshotIndex ≤ request.lastIncludedIndex :=
    h.boundary_le.trans hlt.le
  have hsent : some request.lastIncludedTerm =
      termAt (ℓ.lead request.term) request.lastIncludedIndex :=
    hbacked.covers.term
  rw [h.journal.log.termAt?_of_le hboundary]
  constructor
  · intro hown
    have hagree := (hsound.node id).grounded.agree
      (hsound.lead request.term).grounded
    rw [← hagree _ _ hown hsent.symm]
    exact List.take_prefix _ _
  · intro hle
    rw [termAt_eq_of_isPrefix hle hlength.ge,
      ← termAt_eq_of_isPrefix (List.take_prefix _ _) hlength.ge, hsent]

/-- The journal that has the snapshot as its base. -/
structure Based (S : Scope) (ℓ : Ledger) (id : ℕ) (request : InstallRequest)
    (n : Node Memory) (j : Journal Memory) : Prop where
  shows : j.Shows S ((ℓ.adopt id request.lastIncludedIndex).log id)
  boundary : j.log.snapshotIndex = request.lastIncludedIndex
  hardState : j.disk.hardState = n.disk.hardState

/-- The node with the snapshot stored. -/
def withSnapshot (n : Node Memory) (request : InstallRequest) : Node Memory :=
  n.withJournal (n.toJournal.withSnapshot request.snapshot)

/-- A log that has what the snapshot covers keeps the rest. -/
theorem Tracks.compactTo_covered (h : Tracks S ℓ id n) (hsound : ℓ.Sound S)
    (hbacked : request.Backed S ℓ) (hterm : request.term = ℓ.term id)
    (hlt : n.standing.lastApplied < request.lastIncludedIndex)
    (hfits : n.log.termAt? request.lastIncludedIndex =
      some request.lastIncludedTerm) :
    Ensures (onJournal
        (Journal.compactTo request.lastIncludedIndex request.lastIncludedTerm))
      (n.withSnapshot request)
      (fun _ n' => ∃ j, n' = n.withJournal j ∧ Based S ℓ id request n j)
      fun _ => False := by
  have hall := hsound.numbered (hsound.node id).grounded
  have hcovers := (h.adopts_covered hsound hbacked hterm).covers hbacked hterm
  have hle := (h.covered_isPrefix_iff hsound hbacked hlt).mp hfits
  have hkept : (ℓ.adopt id request.lastIncludedIndex).log id = ℓ.log id := by
    rw [ℓ.adopt_log, ← hterm, Ledger.joined, if_pos hle]
  rw [hkept] at hcovers
  refine ensures_onJournal ((h.journal.compactTo hall hcovers
    (h.boundary_le.trans_lt hlt)).imp ?_)
  rintro - j ⟨hshows, hboundary, hhard⟩
  exact ⟨j, rfl, hkept.symm ▸ hshows, hboundary, hhard⟩

/-- A log that has something else starts over. -/
theorem Tracks.resetTo_covered (h : Tracks S ℓ id n) (hsound : ℓ.Sound S)
    (hbacked : request.Backed S ℓ) (hterm : request.term = ℓ.term id)
    (hlt : n.standing.lastApplied < request.lastIncludedIndex)
    (hfits : n.log.termAt? request.lastIncludedIndex ≠
      some request.lastIncludedTerm) :
    Ensures (onJournal
        (Journal.resetTo request.lastIncludedIndex request.lastIncludedTerm))
      (n.withSnapshot request)
      (fun _ n' => ∃ j, n' = n.withJournal j ∧ Based S ℓ id request n j)
      fun _ => False := by
  have hall := hsound.numbered (hsound.node id).grounded
  have hcovers := (h.adopts_covered hsound hbacked hterm).covers hbacked hterm
  have hnot := mt (h.covered_isPrefix_iff hsound hbacked hlt).mpr hfits
  have hreplaced : (ℓ.adopt id request.lastIncludedIndex).log id =
      (ℓ.lead request.term).take request.lastIncludedIndex := by
    rw [ℓ.adopt_log, ← hterm, Ledger.joined, if_neg hnot]
  rw [hreplaced] at hcovers
  refine ensures_onJournal ((h.journal.resetTo hall hcovers
    (covered_length hbacked).symm).imp ?_)
  rintro - j ⟨hshows, hboundary, hhard⟩
  exact ⟨j, rfl, hreplaced.symm ▸ hshows, hboundary, hhard⟩

/-- The node that starts over from the snapshot. -/
def installed (n : Node Memory) (request : InstallRequest)
    (recorder : Recorder) : Node Memory :=
  { n with
    recorder := recorder
    membership := (Membership.settled request.members).refreshPending
      (n.log.entriesAfter request.lastIncludedIndex)
    standing := { n.standing with
      lastApplied := request.lastIncludedIndex
      commitIndex := max n.standing.commitIndex request.lastIncludedIndex } }

theorem Adopts.installed (hadopts : Adopts S ℓ id request.lastIncludedIndex
      request.lastIncludedIndex n)
    (h : Tracks S ℓ id n) (hrole : n.standing.role = .follower)
    (hbacked : request.Backed S ℓ) (hterm : request.term = ℓ.term id)
    (hle : n.standing.lastApplied ≤ request.lastIncludedIndex)
    (hall : Numbered ((ℓ.adopt id request.lastIncludedIndex).log id))
    {j : Journal Memory} (hbased : Based S ℓ id request n j)
    {recorder : Recorder}
    (hrecord : recorder.record = recordAfter
      ((ℓ.lead request.term).take request.lastIncludedIndex)) :
    Tracks S (ℓ.adopt id request.lastIncludedIndex) id
      ((n.withJournal j).installed request recorder) := by
  have hgrows := (ℓ.moves_adopt id request.lastIncludedIndex).toGrows
  have hcovers := hadopts.covers hbacked hterm
  have htake : ((ℓ.adopt id request.lastIncludedIndex).log id).take
      request.lastIncludedIndex =
        (ℓ.lead request.term).take request.lastIncludedIndex := by
    have hsent := hadopts.sent
    rw [← hterm] at hsent
    rw [take_eq_of_isPrefix hsent (covered_length hbacked).ge, List.take_take,
      Nat.min_self]
  exact { h with
    journal := hbased.shows
    saved := hbased.hardState.trans h.saved
    boundary_le := hbased.boundary.le
    applied_le := le_max_right _ _
    commit_le := hadopts.commit_le
    settled := hadopts.settled
    pending := hadopts.pending
    record := hrecord.trans (congrArg recordAfter htake.symm)
    members := hcovers.members
    noticed :=
      noticed_refreshPending hbased.shows.log hall hbased.boundary.le _
    candidate := fun hcandidate => by
      have hnot : n.standing.role = .candidate := hcandidate
      rw [hrole] at hnot
      exact absurd hnot (by simp)
    leader := fun hleader => by
      have hnot : n.standing.role = .leader := hleader
      rw [hrole] at hnot
      exact absurd hnot (by simp)
    truthful := h.truthful.mono hgrows hle }

/-- The consumer takes over what the snapshot has recorded, or cannot read it. -/
theorem restore_cases (hbacked : request.Backed S ℓ) (recorder : Recorder) :
    (Record.decode? request.data = none ∧
      recorder.restore request.data = .error .serialization) ∨
    Record.decode? request.data ≠ none ∧
    ∃ restored, recorder.restore request.data = .ok restored ∧
      restored.record = recordAfter
        ((ℓ.lead request.term).take request.lastIncludedIndex) := by
  have hdata : request.data = (recordAfter
      ((ℓ.lead request.term).take request.lastIncludedIndex)).encode :=
    hbacked.covers.data
  unfold Recorder.restore
  cases hdecode : Record.decode? request.data with
  | none => exact Or.inl ⟨rfl, rfl⟩
  | some record =>
      rw [hdata] at hdecode
      exact Or.inr ⟨by simp, _, rfl, Record.eq_of_decode? hdecode⟩

/-- What follows once the log has its new base. -/
def startOver (request : InstallRequest) : Act Memory Unit := do
  let n ← get
  match n.recorder.restore request.data with
  | .error e => throw e
  | .ok recorder =>
    set (n.installed request recorder)
    Node.applyCommitted

theorem Ready.startOver (h : Ready S ℓ id n) (hsound : ℓ.Sound S)
    (hrole : n.standing.role = .follower) (hbacked : request.Backed S ℓ)
    (hterm : request.term = ℓ.term id)
    (hle : n.standing.lastApplied ≤ request.lastIncludedIndex)
    (hall : Numbered ((ℓ.adopt id request.lastIncludedIndex).log id))
    {j : Journal Memory} (hbased : Based S ℓ id request n j) :
    Ensures (Node.startOver request) (n.withJournal j)
      (fun _ n' => Rests S (ℓ.adopt id request.lastIncludedIndex) id n.settings
        (max n.standing.commitIndex request.lastIncludedIndex)
        request.lastIncludedIndex n' ∧ Record.decode? request.data ≠ none)
      fun n' => Record.decode? request.data = none ∧
        Truthful S (ℓ.adopt id request.lastIncludedIndex) id
          n.standing.lastApplied n'.effects := by
  have hgrows := (ℓ.moves_adopt id request.lastIncludedIndex).toGrows
  have hadopts := h.tracks.adopts_covered hsound hbacked hterm
  have hsame : (n.withJournal j).recorder = n.recorder := rfl
  unfold Node.startOver
  rw [Ensures.get_bind_iff, hsame]
  rcases restore_cases hbacked n.recorder with
    ⟨hnone, herror⟩ | ⟨hreadable, recorder, hok, hrecord⟩
  · rw [herror]
    exact ⟨hnone, h.tracks.truthful.mono hgrows le_rfl⟩
  · rw [hok]
    dsimp only
    rw [Ensures.set_bind_iff]
    have htracks :=
      hadopts.installed h.tracks hrole hbacked hterm hle hall hbased hrecord
    have hcalm : n.standing.role ≠ .candidate := by
      rw [hrole]
      simp
    refine (htracks.applyCommitted hall h.settled.persisted
      fun _ => hcalm).mono ?_ fun _ he => he.elim
    rintro - n' hn'
    have hrests := hn'.rests
    exact ⟨⟨hrests.toReady, hrests.settings, hrests.commit, fun hlong =>
      (hrests.boundary hlong).trans hbased.boundary⟩, hreadable⟩

/-- Installing a snapshot that covers more than is applied. -/
theorem Ready.installSnapshot (h : Ready S ℓ id n) (hsound : ℓ.Sound S)
    (hrole : n.standing.role = .follower) (hbacked : request.Backed S ℓ)
    (hterm : request.term = ℓ.term id)
    (hlt : n.standing.lastApplied < request.lastIncludedIndex)
    (hall : Numbered ((ℓ.adopt id request.lastIncludedIndex).log id)) :
    Ensures (Node.installSnapshot request) n
      (fun _ n' => Rests S (ℓ.adopt id request.lastIncludedIndex) id n.settings
        (max n.standing.commitIndex request.lastIncludedIndex)
        request.lastIncludedIndex n' ∧ Record.decode? request.data ≠ none)
      fun n' => Record.decode? request.data = none ∧
        Truthful S (ℓ.adopt id request.lastIncludedIndex) id
          n.standing.lastApplied n'.effects := by
  unfold Node.installSnapshot
  refine Ensures.bind_of_ok
    (onDisk_ok (h.tracks.journal.disk.clean.saveSnapshot request.snapshot)) ?_
  rw [Ensures.get_bind_iff]
  refine Ensures.ite (fun hfits => ?_) fun hfits => ?_
  · refine (h.tracks.compactTo_covered hsound hbacked hterm hlt
      hfits).andThen_of_succeeds ?_
    rintro - n' ⟨j, rfl, hbased⟩
    exact h.startOver hsound hrole hbacked hterm hlt.le hall hbased
  · refine (h.tracks.resetTo_covered hsound hbacked hterm hlt
      hfits).andThen_of_succeeds ?_
    rintro - n' ⟨j, rfl, hbased⟩
    exact h.startOver hsound hrole hbacked hterm hlt.le hall hbased

/-! ## Handling an install request -/

/-- Where the log starts after the request, if nothing is compacted besides. -/
def boundaryAfter (n : Node Memory) (request : InstallRequest) : ℕ :=
  if request.term < n.standing.currentTerm ∨
      request.lastIncludedIndex ≤ n.standing.lastApplied then
    n.log.snapshotIndex
  else request.lastIncludedIndex

/-- The snapshot is new, and spells no record. -/
def Unreadable (n : Node Memory) (request : InstallRequest) : Prop :=
  ¬ request.term < n.standing.currentTerm ∧
    n.standing.lastApplied < request.lastIncludedIndex ∧
    Record.decode? request.data = none

/-- Installing if the snapshot covers something new, and the answer. -/
def respondInstall (request : InstallRequest) : Act Memory InstallReply := do
  if (← get).standing.lastApplied < request.lastIncludedIndex then
    Node.installSnapshot request
  return ⟨(← get).standing.currentTerm, true⟩

theorem Ready.handled_respondInstall (h : Ready S ℓ id n) (hsound : ℓ.Sound S)
    (hrole : n.standing.role = .follower) (hbacked : request.Backed S ℓ)
    (hterm : request.term = n.standing.currentTerm) :
    Handled S ℓ id n (respondInstall request) (n.boundaryAfter request)
      (fun ℓ' _ => request.lastIncludedIndex ≤ ℓ'.held id request.term ∧
        ¬ n.Unreadable request)
      (n.Unreadable request) := by
  have hcurrent : request.term = ℓ.term id := hterm.trans h.tracks.term
  obtain ⟨e, helection⟩ := hbacked.elected
  have hreach : request.lastIncludedIndex ≤ (ℓ.lead request.term).length :=
    hbacked.covers.index_le
  rw [hcurrent] at helection hreach
  have hsound' : (ℓ.adopt id request.lastIncludedIndex).Sound S :=
    hsound.adopt helection hreach
  have hheld : request.lastIncludedIndex ≤
      (ℓ.adopt id request.lastIncludedIndex).held id request.term := by
    rw [hcurrent, ℓ.adopt_held]
    exact le_max_right _ _
  have hmoves := ℓ.moves_adopt id request.lastIncludedIndex
  by_cases hnew : n.standing.lastApplied < request.lastIncludedIndex
  · have hboundary : n.boundaryAfter request = request.lastIncludedIndex := by
      refine if_neg ?_
      rintro (hlt | hle)
      · exact absurd hterm hlt.ne
      · exact absurd hnew (not_lt.mpr hle)
    rw [hboundary]
    refine ⟨_, max n.standing.commitIndex request.lastIncludedIndex, hmoves,
      hsound', fun threshold => ?_⟩
    have hall' := hsound'.numbered (hsound'.node id).grounded
    unfold respondInstall
    rw [Ensures.get_bind_iff]
    refine Ensures.ite (fun _ => ?_) fun hnot => absurd hnew hnot
    have hinstall := (h.withThreshold threshold).installSnapshot hsound hrole
      hbacked hcurrent hnew hall'
    refine Ensures.andThen (hinstall.mono (fun _ _ hn' => hn')
      fun n' hn' => ⟨⟨hterm.not_lt, hnew, hn'.1⟩, hn'.2⟩) fun _ n' hn' => ?_
    exact ⟨hn'.1, hheld, fun hunreadable => hn'.2 hunreadable.2.2⟩
  · have hboundary : n.boundaryAfter request = n.log.snapshotIndex :=
      if_pos (Or.inr (not_lt.mp hnew))
    rw [hboundary]
    refine ⟨_, n.standing.commitIndex, hmoves, hsound', fun threshold => ?_⟩
    have hadopt : Ready S (ℓ.adopt id request.lastIncludedIndex) id n :=
      ⟨h.tracks.adopt_of_le hsound helection (not_lt.mp hnew), h.settled⟩
    unfold respondInstall
    rw [Ensures.get_bind_iff]
    refine Ensures.ite (fun hyes => absurd hyes hnew) fun _ => ?_
    exact ⟨(hadopt.withThreshold threshold).rests, hheld,
      fun hunreadable => hnew hunreadable.2.1⟩

/-- The follower of the leader that sent the request. -/
def welcoming (n : Node Memory) (request : InstallRequest) : Node Memory :=
  (n.mapStanding fun s =>
    following (s.observeTerm request.term) request.term request.leader).stored

/-- The same node after its role changed. -/
def welcomed (n : Node Memory) (request : InstallRequest) : Node Memory :=
  ((n.welcoming request).afterRoleChange n.standing.role).emit
    .resetElectionTimer

theorem welcomed_withThreshold (n : Node Memory) (request : InstallRequest)
    (threshold : ℕ) :
    (n.withThreshold threshold).welcomed request =
      (n.welcomed request).withThreshold threshold :=
  congrArg (·.emit .resetElectionTimer)
    (afterRoleChange_withThreshold (n.welcoming request) threshold
      n.standing.role)

theorem quiet_welcomed (n : Node Memory) (request : InstallRequest) :
    Quiet S ℓ id (n.welcoming request) (n.welcomed request) :=
  (quiet_afterRoleChange _).trans (quiet_emit trivial)

/-- The follower is where it was, in the term of the leader. -/
structure Welcomes (S : Scope) (ℓ : Ledger) (id : ℕ) (request : InstallRequest)
    (n : Node Memory) : Prop where
  tracks : Tracks S (ℓ.observe id request.term) id (n.mapStanding fun s =>
    following (s.observeTerm request.term) request.term request.leader)
  ready : Ready S (ℓ.observe id request.term) id (n.welcomed request)
  role : (n.welcomed request).standing.role = .follower
  term : (n.welcomed request).standing.currentTerm =
    (n.standing.observeTerm request.term).currentTerm
  applied : (n.welcomed request).standing.lastApplied = n.standing.lastApplied
  boundary : (n.welcomed request).log.snapshotIndex = n.log.snapshotIndex

theorem Ready.welcomes (h : Ready S ℓ id n) (hsound : ℓ.Sound S)
    (request : InstallRequest) : Welcomes S ℓ id request n := by
  have hobserved := h.tracks.observeTerm hsound request.term
  have hfollows : Follows S (ℓ.observe id request.term) id request.term
      request.leader (n.mapStanding (·.observeTerm request.term)) :=
    hobserved.follows (le_observeTerm _ _) request.leader
  have hquiet : Quiet S (ℓ.observe id request.term) id (n.welcoming request)
      (n.welcomed request) := quiet_welcomed n request
  have happlied : (n.welcoming request).standing.lastApplied =
      n.standing.lastApplied :=
    hfollows.applied.trans (lastApplied_observeTerm _ _)
  have hcommit : (n.welcoming request).standing.commitIndex =
      n.standing.commitIndex :=
    hfollows.commit.trans (commitIndex_observeTerm _ _)
  have hready : Ready S (ℓ.observe id request.term) id (n.welcoming request) :=
    ⟨hfollows.tracks.stored,
      (happlied.trans h.settled.applied).trans hcommit.symm, rfl⟩
  refine ⟨hfollows.tracks, hready.quiet hquiet, ?_, ?_, ?_, ?_⟩
  · rw [hquiet.standing]
    exact hfollows.role
  · rw [hquiet.standing]
    exact congrArg HardState.currentTerm hfollows.hardState
  · rw [hquiet.standing, happlied]
  · rw [hquiet.replica]
    rfl

theorem Ready.handled_installRequest (h : Ready S ℓ id n) (hsound : ℓ.Sound S)
    (hbacked : request.Backed S ℓ) :
    Handled S ℓ id n (Node.handleInstallRequest request)
      (n.boundaryAfter request)
      (fun ℓ' reply => (reply.success = true →
        request.lastIncludedIndex ≤ ℓ'.held id request.term) ∧
          ¬ n.Unreadable request)
      (n.Unreadable request) := by
  by_cases hstale : request.term < n.standing.currentTerm
  · have hboundary : n.boundaryAfter request = n.log.snapshotIndex :=
      if_pos (Or.inl hstale)
    rw [hboundary]
    refine ⟨ℓ, n.standing.commitIndex, Ledger.Moves.refl id ℓ, hsound,
      fun threshold => ?_⟩
    unfold Node.handleInstallRequest
    rw [Ensures.get_bind_iff]
    refine Ensures.ite (fun _ => ?_) fun hnot => absurd hstale hnot
    refine ⟨(h.withThreshold threshold).rests, fun hsuccess => ?_,
      fun hunreadable => hunreadable.1 hstale⟩
    exact absurd hsuccess (by simp)
  · have hmoves := ℓ.moves_observe id request.term
    have hwelcomes := h.welcomes hsound request
    have hquiet : Quiet S ℓ id (n.welcoming request) (n.welcomed request) :=
      quiet_welcomed n request
    have hterm : request.term = (n.welcomed request).standing.currentTerm := by
      rw [hwelcomes.term]
      exact (currentTerm_observeTerm (not_lt.mp hstale)).symm
    have hboundary : n.boundaryAfter request =
        (n.welcomed request).boundaryAfter request := by
      unfold Node.boundaryAfter
      rw [hwelcomes.applied, hwelcomes.boundary, ← hterm]
      simp only [hstale, lt_irrefl, false_or]
    have hunreadable : n.Unreadable request =
        (n.welcomed request).Unreadable request := by
      unfold Node.Unreadable
      rw [hwelcomes.applied, ← hterm]
      simp only [hstale, lt_irrefl]
    rw [hboundary, hunreadable]
    refine (hwelcomes.ready.handled_respondInstall
      (hsound.observe id request.term) hwelcomes.role
      (hbacked.mono hmoves.toGrows) hterm).of_reduction hmoves
      hquiet.settings hwelcomes.applied fun threshold ℓ' commit hrun => ?_
    rw [← welcomed_withThreshold] at hrun
    have hthreshold := (h.withThreshold threshold).welcomes hsound request
    unfold Node.handleInstallRequest
    rw [Ensures.get_bind_iff]
    refine Ensures.ite (fun hyes => absurd hyes hstale) fun _ => ?_
    rw [Ensures.modify_bind_iff]
    refine Ensures.bind_of_ok hthreshold.tracks.persist_eq ?_
    rw [Ensures.modify_bind_iff]
    exact hrun.imp (fun _ _ hn' => ⟨hn'.1, fun _ => hn'.2.1, hn'.2.2⟩)

end Consensus.Node
