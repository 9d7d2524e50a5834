import Consensus.Proofs.World.Applied
import Consensus.Proofs.World.Script

/-!
# Nodes agree on what they apply

Where the members stay, no index is ever applied with two entries, whatever
nodes, moments and restarts are compared, and nothing that a node knows to be
applied is left out.  So consumers record the same commands in the same order,
and each has a first part of what the others have.

A leader of a later term has everything that was committed before, in its log or
behind the snapshot that its log starts from.
-/

namespace Consensus

variable {S : Scope}

/-- The consumer of a node, or the one that it left behind. -/
def Place.recorder? : Place → Option Recorder
  | .up n => some n.recorder
  | .down d => some d.recorder
  | .failed => none

namespace Run

variable {r : Run S} {ledger : ℕ → Ledger} {j k id index a b : ℕ}
  {n m : Node Memory} {e : Entry}

/-! ## Consumers -/

/-- A consumer has recorded a settled list of entries. -/
theorem Account.recorded (h : r.Account ledger) {recorder : Recorder}
    (hplace : ((r.world k).place id).recorder? = some recorder) :
    ∃ bound entries, (ledger k).Settled S bound entries ∧
      recorder.record = recordAfter entries := by
  cases hcase : (r.world k).place id with
  | up n =>
      rw [hcase] at hplace
      obtain rfl := Option.some.inj hplace
      have htracks := (h.ready hcase).tracks
      exact ⟨_, _, htracks.applied_settled, htracks.record⟩
  | down d =>
      rw [hcase] at hplace
      obtain rfl := Option.some.inj hplace
      have hlasts := (h.accounted k).down hcase
      obtain ⟨applied, -, hle, -, hsettled⟩ := hlasts.applied
      exact ⟨_, _, hsettled.of_isPrefix (List.take_prefix_take_left hle),
        hlasts.record⟩
  | failed =>
      rw [hcase] at hplace
      exact absurd hplace (by simp [Place.recorder?])

/-- Of two consumers one has recorded a first part of what the other has. -/
theorem Account.records_comparable (h : r.Account ledger) {x y : Recorder}
    (hx : ((r.world j).place a).recorder? = some x)
    (hy : ((r.world k).place b).recorder? = some y) :
    x.record.entries <+: y.record.entries ∨
      y.record.entries <+: x.record.entries := by
  obtain ⟨bound, xs, hxs, hxrecord⟩ := h.recorded hx
  obtain ⟨bound', ys, hys, hyrecord⟩ := h.recorded hy
  have hxs' := hxs.mono (h.grows (le_max_left j k)) le_rfl
  have hys' := hys.mono (h.grows (le_max_right j k)) le_rfl
  rw [hxrecord, hyrecord]
  rcases (h.sound _).settled_comparable hxs' hys' with ⟨rest, rfl⟩ | ⟨rest, rfl⟩
  · exact Or.inl (recordAfter_entries_isPrefix xs rest)
  · exact Or.inr (recordAfter_entries_isPrefix ys rest)

/-- The entry that a node applied is the one that the ledger has in its log. -/
theorem Account.applied_iff (h : r.Account ledger) (hup : r.Up k id n)
    (hpos : 0 < index) (hle : index ≤ n.standing.lastApplied) :
    r.Applied k id index e ↔ ((ledger k).log id)[index - 1]? = some e := by
  have hready := h.ready hup
  obtain ⟨found, hfound⟩ := h.exists_applied hup hpos hle
  obtain ⟨entry, hentry⟩ := hready.exists_entry hpos hle
  have hsame : found = entry := (h.settledAt hfound).unique
    (hready.settledAt hpos hle hentry) (h.sound k)
  constructor
  · intro happlied
    rw [hentry, ← hsame, h.applied_unique happlied hfound]
  · intro hget
    rw [← Option.some.inj (hentry.symm.trans hget), ← hsame]
    exact hfound

/-- What a node still has in its log, and has applied, was applied. -/
theorem Account.applied_of_get? (h : r.Account ledger) (hup : r.Up k id n)
    (hget : n.log.get? index = some e) (hpos : 0 < index)
    (hle : index ≤ n.standing.lastApplied) : r.Applied k id index e :=
  (h.applied_iff hup hpos hle).mpr ((h.ready hup).log_of_get? hget)

/-- A consumer has recorded the commands among what its node applied. -/
theorem Account.mem_record_iff (h : r.Account ledger) (hup : r.Up k id n)
    {command : Bytes} : (index, command) ∈ n.recorder.record.entries ↔
      index ≤ n.standing.lastApplied ∧
        ∃ e, r.Applied k id index e ∧ e.payload = .command command := by
  have htracks := (h.ready hup).tracks
  have hall := (h.accounted k).numbered id
  rw [htracks.record, mem_recordAfter_iff]
  constructor
  · rintro ⟨e, he, rfl, hpayload⟩
    obtain ⟨p, hp⟩ := List.mem_iff_getElem?.mp he
    have hlt : p < n.standing.lastApplied := by
      have hbound := (List.getElem?_eq_some_iff.mp hp).1
      rw [List.length_take] at hbound
      exact hbound.trans_le (min_le_left _ _)
    rw [List.getElem?_take_of_lt hlt] at hp
    have hindex : e.index = p + 1 := hall p e hp
    refine ⟨by omega, e, (h.applied_iff hup (by omega) (by omega)).mpr ?_,
      hpayload⟩
    rw [hindex]
    exact hp
  · rintro ⟨hle, e, happlied, hpayload⟩
    obtain ⟨-, -, -, hpos, -⟩ := h.settledAt happlied
    have hget := (h.applied_iff hup hpos hle).mp happlied
    have hindex : e.index = index - 1 + 1 := hall _ e hget
    refine ⟨e, List.mem_iff_getElem?.mpr ⟨index - 1, ?_⟩, by omega, hpayload⟩
    rw [List.getElem?_take_of_lt (by omega)]
    exact hget

/-- What it is for the nodes of a run to agree. -/
structure Agrees (r : Run S) : Prop where
  /-- No two nodes ever apply different entries at one index. -/
  unique : ∀ j k a b index e e', r.Applied j a index e →
    r.Applied k b index e' → e = e'
  /-- A node has applied an entry at every index up to the last applied one. -/
  total : ∀ k id n, r.Up k id n →
    r.AppliedUpTo k id n.standing.lastApplied
  /-- Its consumer has recorded the commands among them. -/
  recorded : ∀ k id n index command, r.Up k id n →
    ((index, command) ∈ n.recorder.record.entries ↔
      index ≤ n.standing.lastApplied ∧
        ∃ e, r.Applied k id index e ∧ e.payload = .command command)
  /-- Of any two consumers one has recorded a first part of what the other has. -/
  comparable : ∀ j k a b x y, ((r.world j).place a).recorder? = some x →
    ((r.world k).place b).recorder? = some y →
      x.record.entries <+: y.record.entries ∨
        y.record.entries <+: x.record.entries

/-- Where the members stay, nodes agree on what they apply. -/
theorem agrees {members : NodeSet} (r : Run (.stays members)) : r.Agrees := by
  obtain ⟨ledger, h⟩ := r.exists_account (Or.inl trivial)
  exact {
    unique := fun _ _ _ _ _ _ _ ha hb => h.applied_unique ha hb
    total := fun _ _ _ hup _ hpos hle => h.exists_applied hup hpos hle
    recorded := fun _ _ _ _ _ hup => h.mem_record_iff hup
    comparable := fun _ _ _ _ _ _ hx hy => h.records_comparable hx hy }

/-! ## Later leaders -/

/-- What was settled in earlier terms is in the log of a leader. -/
theorem Account.settled_isPrefix_log (h : r.Account ledger)
    (hb : r.Up k b m) (hm : m.standing.role = .leader) {bound : ℕ}
    (hbound : bound ≤ m.standing.currentTerm) {entries : List Entry}
    (hsettled : (ledger j).Settled S bound entries) :
    entries <+: (ledger k).log b := by
  have htracks := (h.ready hb).tracks
  have hleader := htracks.leader hm
  obtain ⟨election, helection, -⟩ := hleader.elected
  rw [htracks.term] at hbound
  -- the later ledger has both the choice and the election
  have hgrows := h.grows (le_max_right j k)
  have hlater := hgrows.election _ election helection
  have hstart : election.start.log <+: (ledger k).log b := by
    rw [← hleader.lead]
    exact ((h.sound k).lead _).start election helection
  rcases hsettled.mono (h.grows (le_max_left j k)) le_rfl with
    rfl | ⟨term, length, hlt, hchosen, hle⟩
  · exact List.nil_prefix
  · exact (hle.trans ((h.sound _).chosen_isPrefix_start hchosen
      (hlt.trans_le hbound) hlater)).trans hstart

/-- Where the members stay, what a node such as the leader of a term knows to be
committed is what every leader of a later term has at the same index, in its log
or behind its snapshot. -/
theorem leader_complete {members : NodeSet} (r : Run (.stays members))
    (ha : r.Up j a n) (hpos : 0 < index) (hle : index ≤ n.standing.commitIndex) :
    ∃ e, r.Applied j a index e ∧
      (n.log.get? index = some e ∨ index ≤ n.log.snapshotIndex) ∧
      ∀ k b m, r.Up k b m → m.standing.role = .leader →
        n.standing.currentTerm < m.standing.currentTerm →
          m.log.get? index = some e ∨
            index ≤ m.log.snapshotIndex ∧ r.Applied k b index e := by
  obtain ⟨ledger, h⟩ := r.exists_account (Or.inl trivial)
  have hready := h.ready ha
  rw [← hready.settled.applied] at hle
  obtain ⟨e, he⟩ := hready.exists_entry hpos hle
  have happlied := (h.applied_iff ha hpos hle).mpr he
  refine ⟨e, happlied, ?_, ?_⟩
  · rw [hready.tracks.journal.log.get?_eq]
    split
    · next hcompacted => exact Or.inr hcompacted
    · exact Or.inl he
  · intro k b m hb hm hterm
    rw [hready.tracks.term] at hterm
    have hlater := (h.ready hb).tracks
    have hprefix := h.settled_isPrefix_log hb hm hterm
      hready.tracks.applied_settled
    have hget : ((ledger k).log b)[index - 1]? = some e := by
      apply getElem?_of_isPrefix hprefix
      rw [List.getElem?_take_of_lt (by omega)]
      exact he
    rw [hlater.journal.log.get?_eq]
    split
    · next hcompacted =>
      have hcovered := hcompacted.trans hlater.boundary_le
      exact Or.inr ⟨hcompacted, (h.applied_iff hb hpos hcovered).mpr hget⟩
    · exact Or.inl hget

/-- Node 1 is elected and commits, and then node 2 is elected by node 3, to which
node 1 has sent nothing. -/
def handover : List Move :=
  let settings (id : ℕ) : Settings := { nodeId := id, members := [1, 2, 3] }
  [.start 1 (settings 1), .start 2 (settings 2), .start 3 (settings 3),
    .campaign 1, .deliver 0 20, .deliver 2 0, .deliver 3 21, .deliver 5 0,
    .campaign 2, .deliver 7 22, .deliver 8 0]

/-- Node 2 leads with the entry that node 1 committed. -/
theorem leader_complete_handover :
    let r := Run.ofScript (.stays (.ofList [1, 2, 3])) handover
    ∃ n m e, r.Up 8 1 n ∧ 0 < 1 ∧ 1 ≤ n.standing.commitIndex ∧
      r.Up 11 2 m ∧ m.standing.role = .leader ∧
        n.standing.currentTerm < m.standing.currentTerm ∧
          m.log.get? 1 = some e ∧ m.log.snapshotIndex = 0 := by
  intro r
  have hcommits : ((r.world 8).place 1).passes (fun n =>
      n.standing.commitIndex = 1 ∧ n.standing.currentTerm = 1) = true := by
    cbv
  have hleads : ((r.world 11).place 2).passes (fun m =>
      m.standing.role = .leader ∧ m.standing.currentTerm = 2 ∧
        m.log.snapshotIndex = 0) = true := by
    cbv
  obtain ⟨n, hn, hntest⟩ := Place.exists_up_of_passes hcommits
  obtain ⟨m, hm, hmtest⟩ := Place.exists_up_of_passes hleads
  obtain ⟨hcommit, hnterm⟩ := of_decide_eq_true hntest
  obtain ⟨hrole, hmterm, hsnapshot⟩ := of_decide_eq_true hmtest
  have hpos : 0 < 1 := by decide
  have hle : 1 ≤ n.standing.commitIndex := hcommit.ge
  have hlt : n.standing.currentTerm < m.standing.currentTerm := by omega
  obtain ⟨e, -, -, hlater⟩ := leader_complete r hn hpos hle
  refine ⟨n, m, e, hn, hpos, hle, hm, hrole, hlt, ?_, hsnapshot⟩
  rcases hlater 11 2 m hm hrole hlt with hget | ⟨hcompacted, -⟩
  · exact hget
  · omega

end Run

end Consensus
