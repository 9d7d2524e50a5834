import Consensus.Proofs.Membership
import Consensus.Proofs.Node.Fresh
import Consensus.Proofs.Node.Handling

/-!
# Starting again is sound

What outlives a node is its disk, and its consumer if that is durable.  From
these a node comes back to a place that the ledger knows already: its term, its
vote and its log are on the disk, and it has applied what its consumer holds or
its snapshot covers.

The membership is read off the applied entries only.  A node that forgets more
than one membership change may count votes by a membership that is too old, so
that is excluded.
-/

namespace Consensus

/-! ## Reading a log again -/

/-- Once a membership was applied it no longer matters where one started. -/
theorem membersAfter_eq_of_changes_ne_zero {entries : List Entry}
    (h : changes entries ≠ 0) (base base' : NodeSet) :
    membersAfter base entries = membersAfter base' entries := by
  induction entries generalizing base base' with
  | nil => exact absurd rfl h
  | cons entry entries ih =>
      unfold membersAfter
      rw [List.foldl_cons, List.foldl_cons]
      cases hconfig : entry.config? with
      | some members => rfl
      | none =>
          rw [changes_cons_of_none hconfig] at h
          exact ih h base base'

/-- A server started without members has none or those in force. -/
theorem membersAfter_of_base {all : List Entry} {initial base : NodeSet}
    {boundary applied : ℕ} (hle : boundary ≤ applied)
    (hbase : base = membersAfter initial (all.take boundary) ∨ base = ∅) :
    membersAfter base ((all.drop boundary).take (applied - boundary)) =
        membersAfter initial (all.take applied) ∨
      membersAfter base ((all.drop boundary).take (applied - boundary)) = ∅ := by
  have hsplit : all.take applied = all.take boundary ++
      (all.drop boundary).take (applied - boundary) := by
    rw [← List.take_add, Nat.add_sub_cancel' hle]
  rw [hsplit, membersAfter_append]
  by_cases hzero : changes ((all.drop boundary).take (applied - boundary)) = 0
  · rw [membersAfter_of_changes_eq_zero hzero,
      membersAfter_of_changes_eq_zero hzero]
    exact hbase
  · exact Or.inl (membersAfter_eq_of_changes_ne_zero hzero _ _)

/-- Entries after the last command add nothing to a record. -/
theorem recordAfter_take_lastApplied {entries : List Entry}
    (h : Numbered entries) :
    recordAfter (entries.take (recordAfter entries).lastApplied) =
      recordAfter entries := by
  induction entries using List.reverseRecOn with
  | nil => rfl
  | append_singleton entries entry ih =>
      have hrest := h.of_isPrefix (List.prefix_append entries [entry])
      have hindex : entry.index = entries.length + 1 :=
        h entries.length entry (by simp)
      have hle := recordAfter_lastApplied_le hrest
      have hadd := recordAfter_append_single entries entry
      cases hpayload : entry.payload with
      | command bytes =>
          have hlast : (recordAfter (entries ++ [entry])).lastApplied =
              (entries ++ [entry]).length := by
            rw [hadd, Record.add, hpayload, List.length_append]
            exact hindex
          rw [hlast, List.take_length]
      | noop =>
          have hsame : recordAfter (entries ++ [entry]) = recordAfter entries := by
            rw [hadd, Record.add, hpayload]
          rw [hsame, List.take_append_of_le_length hle]
          exact ih hrest
      | config members =>
          have hsame : recordAfter (entries ++ [entry]) = recordAfter entries := by
            rw [hadd, Record.add, hpayload]
          rw [hsame, List.take_append_of_le_length hle]
          exact ih hrest

/-! ## What outlives a node -/

namespace Durable

variable {S : Scope} {ℓ ℓ' : Ledger} {id : ℕ} {d : Durable Memory}

/-- Disk and consumer of a node that stopped where the ledger says.  The
consumer may be behind what was applied, and even have nothing. -/
structure Lasts (S : Scope) (ℓ : Ledger) (id : ℕ) (d : Durable Memory) :
    Prop where
  keeps : d.disk.Keeps S (ℓ.log id)
  hardState : d.disk.hardState = ⟨ℓ.term id, ℓ.vote id (ℓ.term id)⟩
  record : d.recorder.record =
    recordAfter ((ℓ.log id).take d.recorder.record.lastApplied)
  applied : ∃ applied, d.disk.boundary ≤ applied ∧
    d.recorder.record.lastApplied ≤ applied ∧ applied ≤ (ℓ.log id).length ∧
    ℓ.Settled S (ℓ.term id + 1) ((ℓ.log id).take applied)

theorem Lasts.mono {other : ℕ} (h : Lasts S ℓ id d) (hmoves : ℓ.Moves other ℓ')
    (hne : id ≠ other) : Lasts S ℓ' id d := by
  have hterm := hmoves.other_term id hne
  have hlog := hmoves.other_log id hne
  have hvote := hmoves.other_vote id hne
  refine ⟨?_, ?_, ?_, ?_⟩
  · rw [hlog]
    exact h.keeps
  · rw [hterm, hvote]
    exact h.hardState
  · rw [hlog]
    exact h.record
  · obtain ⟨applied, hboundary, hrecord, hlength, hsettled⟩ := h.applied
    rw [hterm, hlog]
    exact ⟨applied, hboundary, hrecord, hlength,
      hsettled.mono hmoves.toGrows le_rfl⟩

/-- What a node leaves behind that stops between two events. -/
theorem lasts_of_ready {n : Node Memory} (h : Node.Ready S ℓ id n)
    (hall : Numbered (ℓ.log id)) : Lasts S ℓ id n.durable where
  keeps := h.tracks.journal.disk
  hardState := by
    have hsaved : n.disk.hardState = n.standing.hardState :=
      h.tracks.saved.trans h.settled.persisted
    change n.disk.hardState = _
    rw [hsaved, ← h.tracks.vote, ← h.tracks.term]
    rfl
  record := by
    have htake := recordAfter_take_lastApplied
      (hall.of_isPrefix (List.take_prefix n.standing.lastApplied _))
    rw [← h.tracks.record, List.take_take,
      Nat.min_eq_left (h.tracks.recorded_le hall)] at htake
    exact htake.symm
  applied :=
    ⟨n.standing.lastApplied,
      h.tracks.journal.boundary.le.trans h.tracks.boundary_le,
      h.tracks.recorded_le hall, h.tracks.applied_le_length,
      h.tracks.applied_settled⟩

/-- With a fresh consumer the same disk lasts. -/
theorem Lasts.fresh (h : Lasts S ℓ id d) {recorder : Recorder}
    (hfresh : recorder.record = {}) : Lasts S ℓ id ⟨d.disk, recorder⟩ where
  keeps := h.keeps
  hardState := h.hardState
  record := by
    change recorder.record = recordAfter ((ℓ.log id).take
      recorder.record.lastApplied)
    rw [hfresh]
    rfl
  applied := by
    obtain ⟨applied, hboundary, -, hlength, hsettled⟩ := h.applied
    refine ⟨applied, hboundary, ?_, hlength, hsettled⟩
    change recorder.record.lastApplied ≤ applied
    rw [hfresh]
    exact Nat.zero_le _

/-- How far a node will have applied when it starts. -/
def reach (d : Durable Memory) : ℕ := max d.recorder.lastApplied d.disk.boundary

/-- Disk and consumer that a node can start from. -/
structure Starts (S : Scope) (ℓ : Ledger) (id : ℕ) (d : Durable Memory) :
    Prop where
  keeps : d.disk.Keeps S (ℓ.log id)
  hardState : d.disk.hardState = ⟨ℓ.term id, ℓ.vote id (ℓ.term id)⟩
  reach_le : d.reach ≤ (ℓ.log id).length
  settled : ℓ.Settled S (ℓ.term id + 1) ((ℓ.log id).take d.reach)
  record : d.recorder.record =
    recordAfter ((ℓ.log id).take d.recorder.lastApplied)

/-- A node can start with a consumer that says how far it got. -/
theorem Lasts.starts (h : Lasts S ℓ id d)
    (hreports : d.recorder.lastApplied = d.recorder.record.lastApplied) :
    Starts S ℓ id d := by
  obtain ⟨applied, hboundary, hrecord, hlength, hsettled⟩ := h.applied
  have hreach : d.reach ≤ applied := max_le (hreports.le.trans hrecord) hboundary
  exact {
    keeps := h.keeps
    hardState := h.hardState
    reach_le := hreach.trans hlength
    settled := hsettled.of_isPrefix (List.take_prefix_take_left hreach)
    record := by
      rw [hreports]
      exact h.record }

/-- A consumer behind the snapshot is brought up to it. -/
theorem Starts.catchUp (h : Starts S ℓ id d) :
    Ensures (Durable.catchUp d.disk.snapshot) d
      (fun applied d' => applied = d.reach ∧ d'.disk = d.disk ∧
        d'.recorder.record = recordAfter ((ℓ.log id).take d.reach))
      fun d' => d' = d := by
  unfold Durable.catchUp
  rw [Ensures.get_bind_iff]
  cases hsnapshot : d.disk.snapshot with
  | none =>
      have hreach : d.reach = d.recorder.lastApplied := by
        unfold Durable.reach Memory.boundary
        rw [hsnapshot]
        exact max_eq_left (Nat.zero_le _)
      rw [hreach]
      exact ⟨rfl, rfl, h.record⟩
  | some snapshot =>
      have hreach : d.reach = max d.recorder.lastApplied snapshot.index := by
        unfold Durable.reach Memory.boundary
        rw [hsnapshot]
        rfl
      have hcovers := h.keeps.snapshot snapshot hsnapshot
      refine Ensures.ite (fun hbehind => ?_) fun hahead => ?_
      · rw [hreach, max_eq_right hbehind.le]
        unfold Recorder.restore
        cases hdecode : Record.decode? snapshot.data with
        | none => exact rfl
        | some record =>
            rw [hcovers.data] at hdecode
            exact ⟨rfl, rfl, Record.eq_of_decode? hdecode⟩
      · rw [hreach, max_eq_left (not_lt.mp hahead)]
        exact ⟨rfl, rfl, h.record⟩

/-- The log that a disk gives back. -/
def restoredLog (ℓ : Ledger) (id : ℕ) (d : Durable Memory) : Log :=
  ⟨(ℓ.log id).drop d.disk.boundary, d.disk.boundary,
    (d.disk.snapshot.map (·.term)).getD 0⟩

theorem Starts.shows (h : Starts S ℓ id d) :
    (restoredLog ℓ id d).Shows (ℓ.log id) where
  boundary_le := (le_max_right _ _).trans h.reach_le
  entries := rfl
  term := by
    change some ((d.disk.snapshot.map (·.term)).getD 0) =
      termAt (ℓ.log id) ((d.disk.snapshot.map (·.index)).getD 0)
    cases hsnapshot : d.disk.snapshot with
    | none => rfl
    | some snapshot => exact (h.keeps.snapshot snapshot hsnapshot).term

/-- The members that a disk or the settings give to start from. -/
theorem Starts.base (h : Starts S ℓ id d) {initial : NodeSet}
    (hinitial : initial = S.members ∨ initial = ∅) :
    (d.disk.snapshot.map (·.members)).getD initial =
        membersAfter S.members ((ℓ.log id).take d.disk.boundary) ∨
      (d.disk.snapshot.map (·.members)).getD initial = ∅ := by
  unfold Memory.boundary
  cases hsnapshot : d.disk.snapshot with
  | none => exact hinitial
  | some snapshot => exact (h.keeps.snapshot snapshot hsnapshot).members

end Durable

/-! ## The node that starts -/

namespace Durable

variable {S : Scope} {ℓ : Ledger} {id : ℕ} {d d' : Durable Memory}

theorem Starts.ready (h : Starts S ℓ id d) (hall : Numbered (ℓ.log id))
    {settings : Settings} (hself : settings.nodeId = id) {base : NodeSet}
    (hbase : base = membersAfter S.members ((ℓ.log id).take d.disk.boundary) ∨
      base = ∅)
    (hdisk : d'.disk = d.disk)
    (hrecord : d'.recorder.record = recordAfter ((ℓ.log id).take d.reach))
    (hpending : changes ((ℓ.log id).drop d.reach) ≤ 1) :
    Node.Ready S ℓ id (Node.started settings (restoredLog ℓ id d) base d.reach
      d.disk.hardState d') := by
  have hshows := h.shows
  have hboundary : d.disk.boundary ≤ d.reach := le_max_right _ _
  have hreplayed : ((restoredLog ℓ id d).entriesAfter
      (restoredLog ℓ id d).snapshotIndex).takeWhile
        (fun e => decide (e.index ≤ d.reach)) =
      ((ℓ.log id).drop d.disk.boundary).take (d.reach - d.disk.boundary) := by
    rw [hshows.entriesAfter_eq hall le_rfl]
    exact (hall.drop d.disk.boundary).takeWhile_index_le d.reach
  refine ⟨?_, rfl, rfl⟩
  exact {
    self := hself
    term := congrArg HardState.currentTerm h.hardState
    vote := congrArg HardState.votedFor h.hardState
    journal := {
      log := hshows
      disk := by
        change d'.disk.Keeps S (ℓ.log id)
        rw [hdisk]
        exact h.keeps
      boundary := congrArg Memory.boundary hdisk }
    saved := congrArg Memory.hardState hdisk
    boundary_le := hboundary
    applied_le := le_rfl
    commit_le := h.reach_le
    settled := h.settled
    pending := hpending
    record := hrecord
    members := by
      change (Membership.recover _ _ _).committed = _ ∨
        (Membership.recover _ _ _).committed = ∅
      rw [Membership.committed_recover, hreplayed]
      exact membersAfter_of_base hboundary hbase
    noticed := Node.noticed_refreshPending hshows hall hboundary _
    candidate := fun hrole => absurd hrole (by
      change Role.follower ≠ .candidate
      simp)
    leader := fun hrole => absurd hrole (by
      change Role.follower ≠ .leader
      simp)
    truthful := fun _ heffect => absurd heffect List.not_mem_nil }

/-- A node that starts has applied what its consumer or its snapshot has. -/
theorem Starts.recover (h : Starts S ℓ id d) (hsound : ℓ.Sound S)
    {settings : Settings} (hself : settings.nodeId = id)
    (hmembers : NodeSet.ofList settings.members = S.members ∨
      NodeSet.ofList settings.members = ∅) :
    Ensures (Node.recover settings) d
      (fun n _ => n.standing.lastApplied = d.reach ∧
        n.log.entriesAfter n.standing.lastApplied = (ℓ.log id).drop d.reach ∧
        (changes ((ℓ.log id).drop d.reach) ≤ 1 → Node.Ready S ℓ id n))
      fun d' => d' = d := by
  have hall := hsound.numbered (hsound.node id).grounded
  unfold Node.recover
  cases settings.validate with
  | error e => exact rfl
  | ok a =>
      dsimp only
      have hhard : Durable.onDisk (Storage.inspect Storage.loadHardState) d =
          .ok d.disk.hardState d := rfl
      have hsnapshot : Durable.onDisk (Storage.inspect Storage.loadSnapshot) d =
          .ok d.disk.snapshot d := rfl
      refine Ensures.bind_of_ok hhard ?_
      refine Ensures.bind_of_ok hsnapshot ?_
      refine Ensures.bind (Ensures.onPart ((h.keeps.load hall _).mono ?_ ?_))
      swap
      · rintro disk rfl
        rfl
      rintro log disk ⟨rfl, rfl⟩
      refine Ensures.ite (fun _ => rfl) fun _ => ?_
      refine Ensures.andThen h.catchUp ?_
      rintro applied d' ⟨rfl, hdisk, hrecord⟩
      have hlast := h.shows.lastIndex_eq hall
      refine Ensures.ite (fun hbeyond => ?_) fun _ => ?_
      · have hlt : (restoredLog ℓ id d).lastIndex < d.reach := hbeyond
        have hle := h.reach_le
        omega
      · have hboundary : d.disk.boundary ≤ d.reach := le_max_right _ _
        exact ⟨rfl, h.shows.entriesAfter_eq hall hboundary,
          h.ready hall hself (h.base hmembers) hdisk hrecord⟩

end Durable

end Consensus
