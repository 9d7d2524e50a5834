import Consensus.Proofs.Node.Aside
import Consensus.Proofs.Node.Standing
import Consensus.Proofs.Node.Tracks

/-!
# Committing and applying are sound

Applying an entry keeps the record and the membership at what the applied
entries amount to.  A leader commits what a majority holds, and that is a
choice in the sense of the ledger: the majority is one of the members after
what was committed before, and the last entry is of the leader's own term.

None of this adds anything to the ledger, and with everything in place none of
it can fail.
-/

namespace Consensus.Node

variable {S : Scope} {ℓ : Ledger} {id : ℕ} {n n' n'' : Node Memory}

/-- The node goes on without a change of its commit index, and compacts its log
only if that is too long. -/
structure Onward (ℓ : Ledger) (id : ℕ) (n n' : Node Memory) : Prop where
  settings : n'.settings = n.settings
  commit : n'.standing.commitIndex = n.standing.commitIndex
  boundary : (ℓ.log id).length ≤ n.settings.compactionThreshold →
    n'.log.snapshotIndex = n.log.snapshotIndex

theorem Onward.refl (n : Node Memory) : Onward ℓ id n n :=
  ⟨rfl, rfl, fun _ => rfl⟩

theorem Onward.trans (h : Onward ℓ id n n') (h' : Onward ℓ id n' n'') :
    Onward ℓ id n n'' where
  settings := h'.settings.trans h.settings
  commit := h'.commit.trans h.commit
  boundary hlong := by
    rw [h'.boundary (by rwa [h.settings]), h.boundary hlong]

theorem Quiet.onward (h : Quiet S ℓ id n n') : Onward ℓ id n n' where
  settings := h.settings
  commit := by rw [h.standing]
  boundary _ := by rw [h.replica]

/-! ## Applying one entry -/

/-- The record and the membership follow the entry that is applied. -/
theorem Tracks.advance (h : Tracks S ℓ id n) (hall : Numbered (ℓ.log id))
    {entry : Entry} (hget : (ℓ.log id)[n.standing.lastApplied]? = some entry)
    (hlt : n.standing.lastApplied < n.standing.commitIndex)
    (hrole : n.standing.role ≠ .candidate) (recorder : Recorder)
    (membership : Membership)
    (hrecord : recorder.record = n.recorder.record.add entry)
    (hcommitted : membership.committed =
      entry.config?.getD n.membership.committed)
    (hpending : ∀ change, n.membership.pending = some change →
      n.standing.lastApplied + 1 < change.1 →
        membership.pending = some change) :
    Tracks S ℓ id { n with
      recorder := recorder
      membership := membership
      standing := { n.standing with
        lastApplied := n.standing.lastApplied + 1 } } := by
  have htake : (ℓ.log id).take (n.standing.lastApplied + 1) =
      (ℓ.log id).take n.standing.lastApplied ++ [entry] := by
    rw [List.take_add_one, hget]
    rfl
  refine { h with
    boundary_le := h.boundary_le.trans (Nat.le_succ _)
    applied_le := hlt, record := ?_, members := ?_, noticed := ?_
    candidate := fun hcandidate => absurd hcandidate hrole
    leader := fun hleader => ?_
    truthful := h.truthful.mono (.refl ℓ) (Nat.le_succ _) }
  · change recorder.record =
      recordAfter ((ℓ.log id).take (n.standing.lastApplied + 1))
    rw [htake, recordAfter_append_single, ← h.record]
    exact hrecord
  · change membership.committed = membersAfter S.members
      ((ℓ.log id).take (n.standing.lastApplied + 1)) ∨ membership.committed = ∅
    rw [htake, membersAfter_append_single, hcommitted]
    cases entry.config? with
    | some members => exact Or.inl rfl
    | none => exact h.members
  · intro found hfound hconfig
    have hdrop : (ℓ.log id).drop (n.standing.lastApplied + 1) <:+
        (ℓ.log id).drop n.standing.lastApplied := by
      rw [← List.drop_drop]
      exact List.drop_suffix _ _
    obtain ⟨change, hchange, hle⟩ :=
      h.noticed found (hdrop.subset hfound) hconfig
    obtain ⟨k, hk⟩ := List.mem_iff_getElem?.mp hfound
    have hindex := hall.drop (n.standing.lastApplied + 1) k found hk
    exact ⟨change, hpending change hchange (by omega), hle⟩
  · have hold := h.leader hleader
    refine { hold with exact := ?_ }
    change membership.committed = membersAfter S.members
      ((ℓ.log id).take (n.standing.lastApplied + 1))
    rw [htake, membersAfter_append_single, hcommitted, hold.exact]

theorem Recorder.apply_record {m : Recorder} {entry : Entry} {bytes : Bytes}
    (hpayload : entry.payload = .command bytes)
    (hlt : m.record.lastApplied < entry.index) :
    (m.apply entry.index bytes).record = m.record.add entry := by
  have hnot : ¬ entry.index ≤ m.record.lastApplied := by omega
  rw [Record.add, hpayload, Recorder.apply]
  simp only [hnot, if_false]

theorem quiet_answerCommand (index term : ℕ) :
    Quiet S ℓ id n (n.answerCommand index term) := by
  unfold answerCommand
  split
  · exact Quiet.refl n
  · refine ⟨rfl, rfl, rfl, rfl, rfl, fun h => h,
      (quiet_emit (backed_answer ?_)).truthful⟩
    split <;> trivial

theorem quiet_answerChange (index term : ℕ) :
    Quiet S ℓ id n (n.answerChange index term) := by
  unfold answerChange
  split
  · exact Quiet.refl n
  · exact ⟨rfl, rfl, rfl, rfl, rfl, fun h => h,
      (quiet_emit (backed_answer (by trivial))).truthful⟩

theorem quiet_answerWaiters (index term : ℕ) :
    Quiet S ℓ id n (n.answerWaiters index term) := by
  rw [answerWaiters_eq]
  exact (quiet_answerCommand index term).trans (quiet_answerChange index term)

theorem Tracks.applyEntry (h : Tracks S ℓ id n) (hall : Numbered (ℓ.log id))
    {entry : Entry} (hget : (ℓ.log id)[n.standing.lastApplied]? = some entry)
    (hlt : n.standing.lastApplied < n.standing.commitIndex)
    (hrole : n.standing.role ≠ .candidate) :
    Tracks S ℓ id (n.applyEntry entry (n.standing.lastApplied + 1)) := by
  have hindex := hall _ entry hget
  refine Tracks.quiet ?_ (quiet_answerWaiters _ _)
  unfold enact
  split
  · next hpayload =>
    refine h.advance hall hget hlt hrole n.recorder n.membership ?_ ?_
      fun _ hchange _ => hchange
    · rw [Record.add, hpayload]
    · rw [Entry.config?, hpayload]
      rfl
  · next bytes hpayload =>
    have happlied : n.recorder.record.lastApplied < entry.index := by
      have hle := h.recorded_le hall
      omega
    have hrecord := Recorder.apply_record hpayload happlied
    rw [hindex] at hrecord
    have hadvance := h.advance hall hget hlt hrole
      (n.recorder.apply (n.standing.lastApplied + 1) bytes) n.membership
      hrecord (by rw [Entry.config?, hpayload]; rfl)
      fun _ hchange _ => hchange
    exact hadvance.quiet ⟨rfl, rfl, rfl, rfl, rfl, fun h => h,
      (quiet_emit (by trivial)).truthful⟩
  · next members hpayload =>
    have hadvance := h.advance hall hget hlt hrole n.recorder
      (n.membership.onCommit (n.standing.lastApplied + 1) members)
      (by rw [Record.add, hpayload])
      (by rw [Entry.config?, hpayload]; rfl)
      (fun change hchange hlater => by
        unfold Membership.onCommit
        rw [hchange]
        simp [Option.filter, hlater])
    let m : Node Memory := { n with
      membership := n.membership.onCommit (n.standing.lastApplied + 1) members }
    have hsync : Quiet S ℓ id m
        (m.syncPeers m.targets (m.log.lastIndex + 1)) :=
      quiet_syncPeers _ (Nat.succ_pos _)
    unfold adoptMembers
    dsimp only
    split
    · exact hadvance.quiet (hsync.mapStanding
        (fun s => { s with lastApplied := n.standing.lastApplied + 1 })
        (Nat.le_succ n.standing.lastApplied))
    · exact hadvance

/-! ## Applying all that is committed -/

/-- What applying entries leaves behind. -/
structure Applied (S : Scope) (ℓ : Ledger) (id applied : ℕ)
    (n n' : Node Memory) : Prop where
  tracks : Tracks S ℓ id n'
  onward : Onward ℓ id n n'
  applied : n'.standing.lastApplied = applied
  persisted : n'.persisted = n'.standing.hardState
  role : n.standing.role ≠ .candidate → n'.standing.role ≠ .candidate

/-- Stepping down in the current term. -/
theorem Tracks.stepDown_of_le (h : Tracks S ℓ id n) {term : ℕ}
    (hterm : term ≤ n.standing.currentTerm) :
    Ensures (Node.stepDown term) n
      (fun _ n' => Applied S ℓ id n.standing.lastApplied n n')
      fun _ => False := by
  have hfollower := becomeFollower_of_le hterm
  have htracks : Tracks S ℓ id (n.mapStanding (·.becomeFollower term)) := by
    refine h.withStanding ?_ ?_ ?_ ?_ (Or.inl ?_) <;> simp only [hfollower]
  unfold Node.stepDown
  simp only [Ensures.get_bind_iff, Ensures.modify_bind_iff]
  refine Ensures.bind_of_ok htracks.persist_eq ?_
  rw [Ensures.modify_iff]
  have hquiet : Quiet S ℓ id (n.mapStanding (·.becomeFollower term)).stored
      ((n.mapStanding (·.becomeFollower term)).stored.afterRoleChange
        n.standing.role) := quiet_afterRoleChange _
  have hstanding : (n.mapStanding (·.becomeFollower term)).stored.standing =
      { n.standing with role := .follower, votes := ∅ } := hfollower
  exact {
    tracks := htracks.stored.quiet hquiet
    onward := {
      settings := hquiet.settings
      commit := by rw [hquiet.standing, hstanding]
      boundary := fun _ => by rw [hquiet.replica]; rfl }
    applied := by rw [hquiet.standing, hstanding]
    persisted := by rw [hquiet.persisted, hquiet.standing]; rfl
    role := fun _ => by rw [hquiet.standing, hstanding]; simp }

theorem Tracks.applyNext (h : Tracks S ℓ id n) (hall : Numbered (ℓ.log id))
    (hlt : n.standing.lastApplied < n.standing.commitIndex)
    (hpersisted : n.persisted = n.standing.hardState)
    (hrole : n.standing.role ≠ .candidate) :
    Ensures Node.applyNext n
      (fun _ n' => Applied S ℓ id (n.standing.lastApplied + 1) n n')
      fun _ => False := by
  have hlength : n.standing.lastApplied < (ℓ.log id).length :=
    hlt.trans_le h.commit_le
  have hboundary := h.boundary_le
  have hget : (ℓ.log id)[n.standing.lastApplied]? =
      some (ℓ.log id)[n.standing.lastApplied] :=
    List.getElem?_eq_getElem hlength
  have hfound : n.log.get? (n.standing.lastApplied + 1) =
      some (ℓ.log id)[n.standing.lastApplied] := by
    rw [h.journal.log.get?_eq, if_neg (by omega), Nat.add_sub_cancel, hget]
  have htracks := h.applyEntry hall hget hlt hrole
  have henacted := enacted_applyEntry n
    (ℓ.log id)[n.standing.lastApplied] (n.standing.lastApplied + 1)
  have hstanding := henacted.standing
  have happlied : Applied S ℓ id (n.standing.lastApplied + 1) n
      (n.applyEntry (ℓ.log id)[n.standing.lastApplied]
        (n.standing.lastApplied + 1)) := {
    tracks := htracks
    onward := {
      settings := henacted.settings
      commit := by rw [hstanding]
      boundary := fun _ => by rw [henacted.replica] }
    applied := by rw [hstanding]
    persisted := by rw [henacted.persisted, hstanding]; exact hpersisted
    role := fun _ => by rw [hstanding]; exact hrole }
  unfold Node.applyNext
  simp only [Ensures.get_bind_iff, hfound, Ensures.set_bind_iff]
  refine Ensures.ite (fun _ => ?_) fun _ => happlied
  rw [Ensures.set_bind_iff]
  have hquietly := happlied.tracks.withStanding (s := {
    (n.applyEntry (ℓ.log id)[n.standing.lastApplied]
      (n.standing.lastApplied + 1)).standing with leader := none })
    rfl rfl rfl rfl (Or.inr ⟨rfl, rfl⟩)
  refine (hquietly.stepDown_of_le le_rfl).imp ?_
  rintro - n' hn'
  exact {
    tracks := hn'.tracks
    onward := happlied.onward.trans
      ⟨hn'.onward.settings, hn'.onward.commit, hn'.onward.boundary⟩
    applied := hn'.applied.trans happlied.applied
    persisted := hn'.persisted
    role := fun _ => hn'.role (happlied.role hrole) }

/-- Applying one committed entry after the other. -/
theorem Tracks.applyMany (h : Tracks S ℓ id n) (hall : Numbered (ℓ.log id))
    {count : ℕ}
    (hcount : n.standing.lastApplied + count ≤ n.standing.commitIndex)
    (hpersisted : n.persisted = n.standing.hardState)
    (hrole : 0 < count → n.standing.role ≠ .candidate) :
    Ensures (Node.applyMany count) n
      (fun _ n' => Applied S ℓ id (n.standing.lastApplied + count) n n')
      fun _ => False := by
  induction count generalizing n with
  | zero =>
      exact ⟨h, Onward.refl n, rfl, hpersisted, fun hrole => hrole⟩
  | succ count ih =>
      have hcalm := hrole (Nat.succ_pos count)
      unfold Node.applyMany
      refine (h.applyNext hall (by omega) hpersisted hcalm).andThen ?_
      rintro - n' hn'
      have hcommit := hn'.onward.commit
      have happlied := hn'.applied
      have hcalm' := hn'.role hcalm
      refine (ih hn'.tracks (by omega) hn'.persisted fun _ => hcalm').imp ?_
      rintro - n'' hn''
      exact {
        tracks := hn''.tracks
        onward := hn'.onward.trans hn''.onward
        applied := by rw [hn''.applied, happlied]; omega
        persisted := hn''.persisted
        role := fun _ => hn''.role hcalm' }

/-- What is applied is covered by the snapshot that replaces it. -/
theorem Tracks.covers (h : Tracks S ℓ id n) {term : ℕ}
    (hterm : termAt (ℓ.log id) n.standing.lastApplied = some term) :
    Snapshot.Covers S (ℓ.log id) ⟨n.standing.lastApplied, term,
      n.membership.committed, n.recorder.snapshot⟩ where
  index_le := h.applied_le_length
  term := hterm.symm
  members := h.members
  data := congrArg Record.encode h.record

theorem Tracks.compactIfLong (h : Tracks S ℓ id n) (hall : Numbered (ℓ.log id))
    (hpersisted : n.persisted = n.standing.hardState) :
    Ensures Node.compactIfLong n
      (fun _ n' => Applied S ℓ id n.standing.lastApplied n n')
      fun _ => False := by
  unfold Node.compactIfLong
  simp only [Ensures.get_bind_iff]
  refine Ensures.ite
    (fun _ => ⟨h, Onward.refl n, rfl, hpersisted, fun hrole => hrole⟩)
    fun hlong => ?_
  obtain ⟨hsize, hlt⟩ : n.settings.compactionThreshold < n.log.size ∧
      n.log.snapshotIndex < n.standing.lastApplied := by
    omega
  have hsome : (termAt (ℓ.log id) n.standing.lastApplied).isSome :=
    termAt_isSome_iff.mpr h.applied_le_length
  obtain ⟨term, hterm⟩ := Option.isSome_iff_exists.mp hsome
  have hfound : n.log.termAt? n.standing.lastApplied = some term := by
    rw [h.journal.log.termAt?_of_le h.boundary_le, hterm]
  have hcovers := h.covers hterm
  rw [hfound]
  dsimp only
  refine Ensures.bind_of_ok
    (onDisk_ok (h.journal.disk.clean.saveSnapshot _)) ?_
  refine ensures_onJournal ((h.journal.compactTo hall hcovers hlt).imp ?_)
  rintro - j ⟨hshows, hboundary, hhard⟩
  have htracks := h.withJournal hshows hboundary.le hhard
  refine ⟨htracks, ⟨rfl, rfl, fun hshort => ?_⟩, rfl, hpersisted,
    fun hrole => hrole⟩
  have hsizeLe : n.log.size ≤ (ℓ.log id).length := by
    rw [Log.size, h.journal.log.entries, List.length_drop]
    omega
  omega

theorem Tracks.applyCommitted (h : Tracks S ℓ id n)
    (hall : Numbered (ℓ.log id))
    (hpersisted : n.persisted = n.standing.hardState)
    (hrole : n.standing.lastApplied < n.standing.commitIndex →
      n.standing.role ≠ .candidate) :
    Ensures Node.applyCommitted n
      (fun _ n' => Applied S ℓ id n.standing.commitIndex n n')
      fun _ => False := by
  have hle := h.applied_le
  unfold Node.applyCommitted
  simp only [Ensures.get_bind_iff]
  refine (h.applyMany hall (by omega) hpersisted
    fun hpos => hrole (by omega)).andThen ?_
  rintro - n₁ hn₁
  rw [Ensures.modify_bind_iff]
  have hquiet : Quiet S ℓ id n₁ (n₁.emit (.announce n₁.standing.lastApplied)) :=
    quiet_emit (by trivial)
  refine ((hn₁.tracks.quiet hquiet).compactIfLong hall hn₁.persisted).imp ?_
  rintro - n₂ hn₂
  exact {
    tracks := hn₂.tracks
    onward := (hn₁.onward.trans hquiet.onward).trans hn₂.onward
    applied := by
      rw [hn₂.applied]
      change n₁.standing.lastApplied = _
      rw [hn₁.applied]
      omega
    persisted := hn₂.persisted
    role := fun hcalm => hn₂.role (hn₁.role hcalm) }

/-! ## Committing as a leader -/

/-- The commit index of a leader with the given members and peers, after it
counted what a majority holds. -/
def commitReached (ℓ : Ledger) (id : ℕ) (members : NodeSet)
    (peers : Table Progress) (commit : ℕ) : ℕ :=
  let index := members.quorumMatch fun peer =>
    if peer = id then (ℓ.log id).length
    else ((peers.get? peer).map (·.matchIndex)).getD 0
  if index ≤ commit ∨ termAt (ℓ.log id) index ≠ some (ℓ.term id) then commit
  else index

theorem Tracks.matchIndex_eq (h : Tracks S ℓ id n) (hall : Numbered (ℓ.log id)) :
    n.matchIndex = fun peer =>
      if peer = id then (ℓ.log id).length
      else ((n.peers.get? peer).map (·.matchIndex)).getD 0 := by
  funext peer
  unfold Node.matchIndex
  rw [h.self, h.journal.log.lastIndex_eq hall]

theorem Leader.matchIndex_le {members : NodeSet} {peers : Table Progress}
    {applied : ℕ} (h : Leader S ℓ id members peers applied) (peer : ℕ) :
    (if peer = id then (ℓ.log id).length
      else ((peers.get? peer).map (·.matchIndex)).getD 0) ≤
        ℓ.held peer (ℓ.term id) := by
  split
  · next hpeer =>
    rw [hpeer]
    exact h.held
  · cases hget : peers.get? peer with
    | none => exact Nat.zero_le _
    | some p => exact (h.peers peer p hget).matchIndex_le

/-- What a majority holds, up to an entry of the leader's own, is chosen. -/
theorem Tracks.chosen (h : Tracks S ℓ id n) (hall : Numbered (ℓ.log id))
    (hrole : n.standing.role = .leader)
    (happlied : n.standing.lastApplied = n.standing.commitIndex)
    (hlt : n.standing.commitIndex < n.majorityIndex)
    (hterm : termAt (ℓ.log id) n.majorityIndex = some (ℓ.term id)) :
    ℓ.Chosen S (ℓ.term id) n.majorityIndex := by
  have hleader := h.leader hrole
  have hpos : 0 < n.majorityIndex := by omega
  have hsettled : ℓ.Settled S (ℓ.term id + 1)
      ((ℓ.lead (ℓ.term id)).take n.standing.commitIndex) := by
    rw [hleader.lead]
    exact h.settled
  refine Ledger.Chosen.of_settled hsettled {
    known_lt := hlt
    length_le := ?_
    endsIn := ?_
    majority := ?_
    pending := ?_ }
  · rw [hleader.lead]
    exact termAt_isSome_iff.mp (by simp [hterm])
  · rw [hleader.lead]
    exact endsIn_take hpos hterm
  · rw [hleader.lead, ← happlied, ← hleader.exact]
    refine (NodeSet.majority_of_le_quorumMatch hpos le_rfl).mono
      fun peer hpeer => ?_
    rw [h.matchIndex_eq hall] at hpeer
    exact hpeer.trans (hleader.matchIndex_le peer)
  · rw [hleader.lead]
    exact (changes_drop_le_of_isPrefix (List.take_prefix _ _)).trans h.pending

/-- The commit index moves up to what is settled. -/
theorem Tracks.commit (h : Tracks S ℓ id n) {index : ℕ}
    (hrole : n.standing.role ≠ .candidate)
    (hle : n.standing.commitIndex ≤ index) (hlength : index ≤ (ℓ.log id).length)
    (hsettled : ℓ.Settled S (ℓ.term id + 1) ((ℓ.log id).take index)) :
    Tracks S ℓ id (n.mapStanding fun s => { s with commitIndex := index }) :=
  { h with
    applied_le := h.applied_le.trans hle
    commit_le := hlength
    settled := hsettled
    pending := (changes_drop_le hle).trans h.pending
    candidate := fun hcandidate => absurd hcandidate hrole }

theorem Applied.rests (h : Applied S ℓ id n.standing.commitIndex n n') :
    Rests S ℓ id n.settings n.standing.commitIndex n.log.snapshotIndex n' where
  tracks := h.tracks
  settled := ⟨by rw [h.applied, h.onward.commit], h.persisted⟩
  settings := h.onward.settings
  commit := h.onward.commit
  boundary := h.onward.boundary

theorem Ready.advanceCommit (hready : Ready S ℓ id n)
    (hall : Numbered (ℓ.log id)) (hrole : n.standing.role = .leader) :
    Ensures Node.advanceCommit n
      (fun _ n' => Rests S ℓ id n.settings
        (commitReached ℓ id n.membership.committed n.peers
          n.standing.commitIndex) n.log.snapshotIndex n')
      fun _ => False := by
  have h := hready.tracks
  have happlied := hready.settled.applied
  have hpersisted := hready.settled.persisted
  have hboundary := h.boundary_le
  have hindex : n.majorityIndex = n.membership.committed.quorumMatch
      fun peer => if peer = id then (ℓ.log id).length
        else ((n.peers.get? peer).map (·.matchIndex)).getD 0 := by
    rw [Node.majorityIndex, h.matchIndex_eq hall]
  unfold Node.advanceCommit commitReached
  simp only [Ensures.get_bind_iff, ← hindex]
  refine Ensures.ite (fun hnot => absurd hrole hnot) fun _ => ?_
  rw [h.term]
  by_cases hstay : n.majorityIndex ≤ n.standing.commitIndex
  · rw [if_pos (Or.inl hstay), if_pos (Or.inl hstay)]
    exact hready.rests
  · rw [h.journal.log.termAt?_of_le (by omega)]
    by_cases hterm : termAt (ℓ.log id) n.majorityIndex = some (ℓ.term id)
    · have hstop : ¬ (n.majorityIndex ≤ n.standing.commitIndex ∨
          termAt (ℓ.log id) n.majorityIndex ≠ some (ℓ.term id)) := by
        rintro (hle | hne)
        · exact hstay hle
        · exact hne hterm
      rw [if_neg hstop, if_neg hstop, Ensures.set_bind_iff]
      have hchosen := h.chosen hall hrole happlied (by omega) hterm
      have hlead := (h.leader hrole).lead
      have hcommit : Tracks S ℓ id (n.mapStanding fun s =>
          { s with commitIndex := n.majorityIndex }) :=
        h.commit (by simp [hrole]) (by omega) (hlead ▸ hchosen.length_le)
          (Or.inr ⟨ℓ.term id, n.majorityIndex, Nat.lt_succ_self _, hchosen,
            by rw [hlead]⟩)
      refine (hcommit.applyCommitted hall hpersisted fun _ => ?_).mono
        (fun _ n' hn' => hn'.rests) fun _ he => he
      change n.standing.role ≠ .candidate
      simp [hrole]
    · rw [if_pos (Or.inr hterm), if_pos (Or.inr hterm)]
      exact hready.rests

end Consensus.Node
