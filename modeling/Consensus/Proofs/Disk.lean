import Consensus.Journal
import Consensus.Proofs.Ensures
import Consensus.Proofs.LogView
import Consensus.Storage.Memory

/-!
# A disk without faults

On a disk that takes every write, the log in memory and the stored log go
through the same changes.  A journal shows a list of entries if its log does
and its disk holds the rest: the entries after the snapshot, and a snapshot of
what the others amount to.
-/

namespace Consensus

/-- The snapshot stands for the first entries of the list.  A server that was
started without members keeps none until it applies a membership. -/
structure Snapshot.Covers (S : Scope) (all : List Entry) (snapshot : Snapshot) :
    Prop where
  index_le : snapshot.index ≤ all.length
  term : some snapshot.term = termAt all snapshot.index
  members : snapshot.members = membersAfter S.members (all.take snapshot.index) ∨
    snapshot.members = ∅
  data : snapshot.data = (recordAfter (all.take snapshot.index)).encode

theorem Snapshot.Covers.of_take_isPrefix {S : Scope} {all other : List Entry}
    {snapshot : Snapshot} (h : snapshot.Covers S all)
    (hsame : all.take snapshot.index <+: other) : snapshot.Covers S other := by
  have hle := h.index_le
  have hlen : (all.take snapshot.index).length = snapshot.index := by
    rw [List.length_take, Nat.min_eq_left hle]
  have htake : other.take snapshot.index = all.take snapshot.index := by
    rw [take_eq_of_isPrefix hsame hlen.ge, List.take_take, Nat.min_self]
  have hother := hsame.length_le
  refine ⟨by omega, ?_, ?_, ?_⟩
  · rw [h.term, termAt_eq_of_isPrefix hsame hlen.ge,
      termAt_eq_of_isPrefix (List.take_prefix _ _) hlen.ge]
  · rw [htake]
    exact h.members
  · rw [htake]
    exact h.data

namespace Memory

variable {disk : Memory}

/-- The disk takes every write. -/
structure Clean (disk : Memory) : Prop where
  failing : disk.failing = []
  readOnly : disk.readOnly = false

theorem Clean.write (h : disk.Clean) (kind : WriteKind)
    (change : Memory → Memory) : Memory.write kind change disk =
      .ok () (change disk) := by
  have hfault : disk.fault? kind = none := by
    unfold fault?
    rw [h.failing, h.readOnly]
    simp
  unfold Memory.write
  rw [hfault]

theorem Clean.withEntries (h : disk.Clean) (entries : List Entry) :
    Clean { disk with entries := entries } :=
  ⟨h.failing, h.readOnly⟩

theorem Clean.saveHardState (h : disk.Clean) (hard : HardState) :
    (Storage.saveHardState hard : EStateM Error Memory Unit) disk =
      .ok () { disk with hardState := hard } :=
  h.write .hardState _

theorem Clean.append (h : disk.Clean) (entries : List Entry) :
    (Storage.append entries : EStateM Error Memory Unit) disk =
      .ok () { disk with entries := disk.entries ++ entries } :=
  h.write .append _

theorem Clean.truncateFrom (h : disk.Clean) (index : ℕ) :
    (Storage.truncateFrom index : EStateM Error Memory Unit) disk =
      .ok () { disk with
        entries := disk.entries.filter fun e => decide (e.index < index) } :=
  h.write .truncate _

theorem Clean.compactTo (h : disk.Clean) (index : ℕ) :
    (Storage.compactTo index : EStateM Error Memory Unit) disk =
      .ok () { disk with
        entries := disk.entries.filter fun e => decide (index < e.index) } :=
  h.write .compact _

theorem Clean.saveSnapshot (h : disk.Clean) (snapshot : Snapshot) :
    (Storage.saveSnapshot snapshot : EStateM Error Memory Unit) disk =
      .ok () { disk with snapshot := some snapshot } :=
  h.write .snapshot _

/-- Where the stored snapshot ends. -/
def boundary (disk : Memory) : ℕ := (disk.snapshot.map (·.index)).getD 0

/-- The disk holds the list of entries, the first ones as a snapshot. -/
structure Keeps (S : Scope) (all : List Entry) (disk : Memory) : Prop where
  clean : disk.Clean
  entries : disk.entries = all.drop disk.boundary
  snapshot : ∀ snapshot, disk.snapshot = some snapshot → snapshot.Covers S all

end Memory

namespace Journal

variable {S : Scope} {j : Journal Memory} {all : List Entry}

/-- Log and disk hold the list of entries. -/
structure Shows (S : Scope) (j : Journal Memory) (all : List Entry) : Prop where
  log : j.log.Shows all
  disk : j.disk.Keeps S all
  boundary : j.disk.boundary = j.log.snapshotIndex

theorem Shows.stored (h : j.Shows S all) : j.disk.entries = j.log.entries := by
  rw [h.disk.entries, h.log.entries, h.boundary]

/-- The snapshot and the stored term and vote are the same in both. -/
structure SameBase (j j' : Journal Memory) : Prop where
  boundary : j'.log.snapshotIndex = j.log.snapshotIndex
  hardState : j'.disk.hardState = j.disk.hardState

/-- The entries change, and what the snapshot covers stays. -/
theorem Shows.replace (h : j.Shows S all) {other : List Entry}
    (hsame : all.take j.log.snapshotIndex <+: other) :
    Shows S
      ⟨{ j.log with entries := other.drop j.log.snapshotIndex },
        { j.disk with entries := other.drop j.log.snapshotIndex }⟩ other where
  log := h.log.replace hsame
  disk := {
    clean := h.disk.clean.withEntries _
    entries := by
      change other.drop j.log.snapshotIndex = other.drop j.disk.boundary
      rw [h.boundary]
    snapshot := fun snapshot hsnapshot => by
      refine (h.disk.snapshot snapshot hsnapshot).of_take_isPrefix ?_
      have hindex : j.disk.boundary = snapshot.index := by
        have hsome : j.disk.snapshot = some snapshot := hsnapshot
        rw [Memory.boundary, hsome]
        rfl
      rwa [← hindex, h.boundary] }
  boundary := h.boundary

/-! ## Appending -/

theorem onDisk_ok {α : Type} {act : EStateM Error Memory α} {a : α}
    {disk : Memory} (h : act j.disk = .ok a disk) :
    Journal.onDisk act j = .ok a { j with disk := disk } :=
  onPart_ok h

@[simp] theorem ensures_modifyLog {change : Log → Log}
    {Q : Unit → Journal Memory → Prop} {E : Journal Memory → Prop} :
    Ensures (modifyLog change) j Q E ↔ Q () { j with log := change j.log } :=
  Iff.rfl

theorem Shows.append (h : j.Shows S all) (hall : Numbered all) (term : ℕ)
    (payload : Payload) :
    Ensures (Journal.append term payload) j
      (fun index j' => index = all.length + 1 ∧
        j'.Shows S (all ++ [⟨term, all.length + 1, payload⟩]) ∧ j.SameBase j')
      fun _ => False := by
  have hlast := h.log.lastIndex_eq hall
  let entry : Entry := ⟨term, all.length + 1, payload⟩
  have hdrop : (all ++ [entry]).drop j.log.snapshotIndex =
      j.log.entries ++ [entry] := by
    rw [h.log.entries]
    exact List.drop_append_of_le_length h.log.boundary_le
  have hshows := h.replace
    ((List.take_prefix j.log.snapshotIndex all).trans
      (List.prefix_append all [entry]))
  rw [hdrop] at hshows
  unfold Journal.append
  simp only [Ensures.get_bind_iff]
  rw [hlast]
  refine Ensures.bind_of_ok (onDisk_ok (h.disk.clean.append _)) ?_
  rw [h.stored]
  exact ⟨rfl, hshows, rfl, rfl⟩

/-- Cutting the log above `cut`. -/
theorem Shows.truncateFrom (h : j.Shows S all) (hall : Numbered all) {cut : ℕ}
    (hle : j.log.snapshotIndex ≤ cut) (hlt : cut < all.length) :
    Ensures (Journal.truncateFrom (cut + 1)) j
      (fun _ j' => j'.Shows S (all.take cut) ∧ j.SameBase j')
      fun _ => False := by
  have hlast := h.log.lastIndex_eq hall
  have hnumbered := hall.drop j.log.snapshotIndex
  have hcount : cut + 1 - j.log.snapshotIndex - 1 =
      cut - j.log.snapshotIndex := by
    omega
  have hdrop : (all.take cut).drop j.log.snapshotIndex =
      (all.drop j.log.snapshotIndex).take (cut - j.log.snapshotIndex) :=
    List.drop_take
  have hshows := h.replace (List.take_prefix_take_left hle)
  rw [hdrop] at hshows
  unfold Journal.truncateFrom
  simp only [Ensures.get_bind_iff]
  rw [hlast]
  refine Ensures.ite (fun _ => by omega) fun _ => ?_
  refine Ensures.bind_of_ok (onDisk_ok (h.disk.clean.truncateFrom _)) ?_
  rw [h.stored, h.log.entries, hnumbered.filter_index_lt, hcount,
    ensures_modifyLog, Log.takeBefore, h.log.entries, hcount]
  exact ⟨hshows, rfl, rfl⟩

/-- Adding what is missing of a longer list. -/
theorem Shows.extend (h : j.Shows S all) {sent : List Entry}
    (hle : all <+: sent) (answer : ℕ) :
    Ensures
      (do
        Journal.onDisk (Storage.append (sent.drop all.length))
        modifyLog fun log =>
          { log with entries := log.entries ++ sent.drop all.length }
        return answer)
      j
      (fun index j' => index = answer ∧ j'.Shows S sent ∧ j.SameBase j')
      fun _ => False := by
  have hentries : sent.drop j.log.snapshotIndex =
      j.log.entries ++ sent.drop all.length := by
    obtain ⟨rest, rfl⟩ := hle
    rw [List.drop_left, h.log.entries]
    exact List.drop_append_of_le_length h.log.boundary_le
  have hshows := h.replace ((List.take_prefix _ _).trans hle)
  rw [hentries] at hshows
  refine Ensures.bind_of_ok (onDisk_ok (h.disk.clean.append _)) ?_
  rw [h.stored]
  exact ⟨rfl, hshows, rfl, rfl⟩

/-- The log takes over what a leader sent after the first `k` entries, when it
has these already. -/
theorem Shows.appendFromLeader (h : j.Shows S all) {sent : List Entry}
    (hall : Numbered all) (hsent : Numbered sent) (hagree : Agree all sent)
    (hbelow : ∀ k, k ≤ j.log.snapshotIndex → k ≤ sent.length →
      all.take k = sent.take k)
    {k : ℕ} (hk : k ≤ all.length) (hksent : k ≤ sent.length)
    (hsame : all.take k = sent.take k) :
    Ensures (Journal.appendFromLeader k (sent.drop k)) j
      (fun index j' => index = sent.length ∧
        j'.Shows S (Ledger.joined all sent) ∧ j.SameBase j')
      fun _ => False := by
  have hlength : k + (sent.drop k).length = sent.length := by
    rw [List.length_drop]
    omega
  unfold Journal.appendFromLeader
  simp only [Ensures.get_bind_iff, Counting.plus_eq]
  rw [hlength]
  rcases h.log.merge_cases hsent hagree hbelow hk hksent hsame with
    ⟨hmerge, hle⟩ | ⟨hmerge, hle⟩ |
      ⟨cut, hboundary, hcut, hcutSent, htake, hnot, hmerge⟩
  · rw [hmerge, Ledger.joined, if_pos hle]
    exact ⟨rfl, h, rfl, rfl⟩
  · rw [hmerge]
    by_cases hnil : sent.drop all.length = []
    · have hsame : all = sent :=
        hle.eq_of_length_le (List.drop_eq_nil_iff.mp hnil)
      simp only [hnil, ne_eq, not_true_eq_false, if_false]
      rw [Ledger.joined, if_pos (hsame ▸ List.prefix_rfl)]
      exact ⟨rfl, h, rfl, rfl⟩
    · have hnot : ¬ sent <+: all := fun hle' =>
        hnil (List.drop_eq_nil_iff.mpr hle'.length_le)
      simp only [hnil, ne_eq, not_false_eq_true, if_true]
      rw [Ledger.joined, if_neg hnot]
      exact h.extend hle sent.length
  · have hlen : (all.take cut).length = cut := by
      rw [List.length_take]
      omega
    have hle : all.take cut <+: sent := by
      rw [htake]
      exact List.take_prefix _ _
    have hnil : sent.drop cut ≠ [] := fun hnil => hnot (by
      rw [← List.take_of_length_le (List.drop_eq_nil_iff.mp hnil), ← htake]
      exact List.take_prefix _ _)
    rw [hmerge, Ledger.joined, if_neg hnot]
    simp only [hnil, ne_eq, not_false_eq_true, if_true]
    refine (h.truncateFrom hall hboundary hcut).andThen_of_succeeds ?_
    rintro - j₁ ⟨hshows₁, hbase₁⟩
    have hextend := hshows₁.extend hle sent.length
    rw [hlen] at hextend
    refine hextend.imp ?_
    rintro index j₂ ⟨hindex, hshows₂, hbase₂⟩
    exact ⟨hindex, hshows₂, hbase₂.boundary.trans hbase₁.boundary,
      hbase₂.hardState.trans hbase₁.hardState⟩

/-! ## Snapshots -/

/-- The journal after a snapshot was stored, and before its log follows. -/
def withSnapshot (j : Journal Memory) (snapshot : Snapshot) : Journal Memory :=
  { j with disk := { j.disk with snapshot := some snapshot } }

/-- The entries that a stored snapshot covers are dropped. -/
theorem Shows.compactTo (h : j.Shows S all) (hall : Numbered all)
    {snapshot : Snapshot} (hcovers : snapshot.Covers S all)
    (hlt : j.log.snapshotIndex < snapshot.index) :
    Ensures (Journal.compactTo snapshot.index snapshot.term)
      (j.withSnapshot snapshot)
      (fun _ j' => j'.Shows S all ∧ j'.log.snapshotIndex = snapshot.index ∧
        j'.disk.hardState = j.disk.hardState)
      fun _ => False := by
  have hnumbered := hall.drop j.log.snapshotIndex
  have hclean : (j.withSnapshot snapshot).disk.Clean :=
    ⟨h.disk.clean.failing, h.disk.clean.readOnly⟩
  have hstored : (j.withSnapshot snapshot).disk.entries =
      all.drop j.log.snapshotIndex := h.stored.trans h.log.entries
  have hentries : (all.drop j.log.snapshotIndex).drop
      (snapshot.index - j.log.snapshotIndex) = all.drop snapshot.index := by
    rw [List.drop_drop]
    congr 1
    omega
  unfold Journal.compactTo
  simp only [Ensures.get_bind_iff]
  refine Ensures.ite (fun hle => absurd hle (not_le.mpr hlt)) fun _ => ?_
  refine Ensures.bind_of_ok (onDisk_ok (hclean.compactTo _)) ?_
  rw [hstored, hnumbered.filter_lt_index, hentries]
  exact ⟨{
    log := h.log.dropThrough hlt.le hcovers.index_le hcovers.term
    disk := {
      clean := ⟨h.disk.clean.failing, h.disk.clean.readOnly⟩
      entries := rfl
      snapshot := fun found hfound => by
        rw [← Option.some.inj hfound]
        exact hcovers }
    boundary := rfl }, rfl, rfl⟩

/-- The log starts over from the end of a stored snapshot. -/
theorem Shows.resetTo (h : j.Shows S all) (hall : Numbered all)
    {sent : List Entry} {snapshot : Snapshot} (hcovers : snapshot.Covers S sent)
    (hlength : snapshot.index = sent.length) :
    Ensures (Journal.resetTo snapshot.index snapshot.term)
      (j.withSnapshot snapshot)
      (fun _ j' => j'.Shows S sent ∧ j'.log.snapshotIndex = snapshot.index ∧
        j'.disk.hardState = j.disk.hardState)
      fun _ => False := by
  have hnumbered := hall.drop j.log.snapshotIndex
  have hempty : [] = sent.drop snapshot.index := by
    rw [hlength, List.drop_length]
  have hclean : (j.withSnapshot snapshot).disk.Clean :=
    ⟨h.disk.clean.failing, h.disk.clean.readOnly⟩
  have hstored : (j.withSnapshot snapshot).disk.entries =
      all.drop j.log.snapshotIndex := h.stored.trans h.log.entries
  have hresult : Shows S ⟨⟨[], snapshot.index, snapshot.term⟩,
      { j.disk with snapshot := some snapshot, entries := [] }⟩ sent := {
    log := {
      boundary_le := hlength.le
      entries := hempty
      term := hcovers.term }
    disk := {
      clean := ⟨h.disk.clean.failing, h.disk.clean.readOnly⟩
      entries := hempty
      snapshot := fun found hfound => by
        rw [← Option.some.inj hfound]
        exact hcovers }
    boundary := rfl }
  unfold Journal.resetTo
  simp only [Ensures.get_bind_iff]
  refine Ensures.ite (fun hnil => ?_) fun hnil => ?_
  · refine Ensures.bind_of_ok (onDisk_ok (hclean.truncateFrom _)) ?_
    refine Ensures.bind_of_ok
      (onDisk_ok ((hclean.withEntries _).compactTo _)) ?_
    have hgone : (all.drop j.log.snapshotIndex).filter (fun e =>
        decide (e.index < (j.withSnapshot snapshot).log.firstIndex)) = [] := by
      rw [hnumbered.filter_index_lt, Log.firstIndex_eq]
      change List.take (j.log.snapshotIndex + 1 - j.log.snapshotIndex - 1) _ = _
      rw [Nat.add_sub_cancel_left, Nat.sub_self, List.take_zero]
    rw [hstored, hgone]
    exact ⟨hresult, rfl, rfl⟩
  · have hnone : all.drop j.log.snapshotIndex = [] :=
      h.log.entries.symm.trans (not_not.mp hnil)
    refine Ensures.bind_of_ok (onDisk_ok (hclean.compactTo _)) ?_
    rw [hstored, hnone]
    exact ⟨hresult, rfl, rfl⟩

end Journal

/-! ## Reading the log back -/

/-- Loading the log finds what the disk holds, and changes nothing. -/
theorem Memory.Keeps.load {S : Scope} {all : List Entry} {disk : Memory}
    (h : disk.Keeps S all) (hall : Numbered all) (term : ℕ) :
    Ensures (Log.load disk.boundary term) disk
      (fun log disk' => disk' = disk ∧
        log = ⟨all.drop disk.boundary, disk.boundary, term⟩)
      fun disk' => disk' = disk := by
  have hcovered : (disk.entries.takeWhile fun e =>
      decide (e.index ≤ disk.boundary)) = [] := by
    rw [h.entries, (hall.drop _).takeWhile_index_le, Nat.sub_self, List.take_zero]
  unfold Log.load
  refine Ensures.bind_of_ok (a := disk.entries) rfl ?_
  rw [hcovered]
  simp only [ne_eq, not_true_eq_false, if_false, List.length_nil, List.drop_zero]
  split
  · exact rfl
  · rw [h.entries]
    exact ⟨rfl, rfl⟩

end Consensus
