import Consensus.Proofs.Codec
import Consensus.Proofs.Node.Feeding
import Consensus.Proofs.WriteThrough

/-!
# The log of a server without others

A server that is the only member of its cluster never loses an entry: what it appends
stays, in its log or in its snapshot.  So its log and its disk are told from the list
of all entries that it ever appended, none of which changes the members.

Appending an entry adds it to the list, and a snapshot of the first entries leaves the
list as it is.  Reading the disk gives back the log.
-/

namespace Consensus

/-! ## A single member -/

namespace NodeSet

/-- The membership of one server. -/
def single (id : ℕ) : NodeSet := (∅ : NodeSet).insert id

theorem toList_single (id : ℕ) : (single id).toList = [id] := rfl

theorem mem_single (id : ℕ) : id ∈ single id := List.mem_cons_self

/-- Its own vote is enough. -/
theorem hasQuorum_single (id : ℕ) : (single id).hasQuorum (single id) = true := by
  unfold hasQuorum quorum size
  rw [toList_single]
  simp [mem_single]

/-- Whatever it holds, a majority holds. -/
theorem quorumMatch_single (id : ℕ) (matched : ℕ → ℕ) :
    (single id).quorumMatch matched = matched id := by
  unfold quorumMatch quorum size
  rw [toList_single]
  simp

/-- It has nobody to replicate to. -/
theorem erase_single (id : ℕ) : (single id).erase id = ∅ := by
  apply NodeSet.ext
  intro other
  simp [single]

end NodeSet

theorem IsWord.of_le {m n : ℕ} (hn : IsWord n) (hle : m ≤ n) : IsWord m :=
  hle.trans_lt hn

theorem Entry.fits_of_plain {entry : Entry} (hterm : IsWord entry.term)
    (hindex : IsWord entry.index) (hplain : entry.config? = none) :
    entry.Fits IsWord := by
  refine ⟨hterm, hindex, fun members hmembers => ?_⟩
  unfold config? at hplain
  rw [hmembers] at hplain
  exact absurd hplain (by simp)

/-- What is recorded of a log whose indices fit can be read back. -/
theorem recordAfter_fits {entries : List Entry} (hnumbered : Numbered entries)
    (hlength : IsWord entries.length) : (recordAfter entries).Fits := by
  constructor
  · rintro ⟨index, command⟩ hitem
    obtain ⟨entry, hentry, rfl, -⟩ := mem_recordAfter_iff.mp hitem
    obtain ⟨-, hlast, -⟩ := (numbered_iff.mp hnumbered).index_of_mem hentry
    rw [Nat.zero_add] at hlast
    exact hlength.of_le hlast
  · exact hlength.of_le (recordAfter_lastApplied_le hnumbered)

/-! ## The list of all entries -/

variable {σ : Type} {Holds : σ → Stored → Prop} {id : ℕ} {all : List Entry}
  {log : Log} {s : Stored} {hard : HardState}

/-- Log and disk are told from the list of all entries.  The snapshot, if there is one,
has the one member there is. -/
structure Chronicle (id : ℕ) (all : List Entry) (log : Log) (s : Stored) : Prop
    extends s.Upholds all log where
  numbered : Numbered all
  plain : ∀ entry ∈ all, entry.config? = none
  drop : log.entries = all.drop log.snapshotIndex
  reach : log.snapshotIndex ≤ all.length
  sound : log.Sound
  boundaryTerm : s.boundaryTerm = log.snapshotTerm
  members : ∀ snapshot, s.snapshot = some snapshot → snapshot.members = .single id

/-- On a fresh disk there is nothing to tell. -/
theorem chronicle_empty (id : ℕ) : Chronicle id [] ⟨[], 0, 0⟩ {} where
  entries := rfl
  boundary := rfl
  data := fun _ hnone => absurd hnone (by simp)
  numbered := numbered_iff.mpr (.nil 0)
  plain := fun _ hentry => absurd hentry List.not_mem_nil
  drop := rfl
  reach := le_rfl
  sound := ⟨.nil 0, trivial, fun _ => rfl⟩
  boundaryTerm := rfl
  members := fun _ hnone => absurd hnone (by simp)

namespace Chronicle

theorem lastIndex_eq (h : Chronicle id all log s) : log.lastIndex = all.length := by
  have hreach := h.reach
  rw [h.sound.lastIndex_eq, h.drop, List.length_drop]
  omega

/-- The log after another entry of a term that is not behind. -/
theorem push (h : Chronicle id all log s) {entry : Entry}
    (hindex : entry.index = all.length + 1) (hplain : entry.config? = none)
    (hwithin : log.Within entry.term) :
    Chronicle id (all ++ [entry]) (log.push entry)
      { s with entries := (log.push entry).entries } := by
  have hnext : entry.index = log.lastIndex + 1 := by
    rw [hindex, h.lastIndex_eq]
  constructor
  · apply h.toUpholds.of_snapshot
    · rfl
    · rfl
    · rfl
    · exact List.take_append_of_le_length h.reach
  · exact h.numbered.append_single hindex
  · intro found hfound
    rcases List.mem_append.mp hfound with hold | hnew
    · exact h.plain found hold
    · rw [List.mem_singleton.mp hnew]
      exact hplain
  · change log.entries ++ [entry] = (all ++ [entry]).drop log.snapshotIndex
    rw [h.drop, List.drop_append_of_le_length h.reach]
  · change log.snapshotIndex ≤ _
    rw [List.length_append]
    exact h.reach.trans (Nat.le_add_right _ _)
  · rw [h.sound.gapless.push_eq]
    exact h.sound.splice (h.sound.follows_single hnext hwithin)
  · exact h.boundaryTerm
  · exact h.members

/-- The log after its first entries are covered by a snapshot. -/
theorem dropThrough (h : Chronicle id all log s) {snapshot : Snapshot}
    (hlt : log.snapshotIndex < snapshot.index) (hle : snapshot.index ≤ all.length)
    (hterm : log.termAt? snapshot.index = some snapshot.term)
    (hmembers : snapshot.members = .single id)
    (hdata : snapshot.data = (recordAfter (all.take snapshot.index)).encode) :
    Chronicle id all (log.dropThrough snapshot.index snapshot.term)
      { s with
        snapshot := some snapshot
        entries := (log.dropThrough snapshot.index snapshot.term).entries } := by
  constructor
  · exact Stored.upholds_snapshot rfl rfl rfl hdata
  · exact h.numbered
  · exact h.plain
  · change log.entries.drop _ = _
    rw [h.drop, List.drop_drop, Nat.add_sub_cancel' hlt.le]
    rfl
  · exact hle
  · exact h.sound.dropThrough hlt.le (h.lastIndex_eq ▸ hle) hterm
  · rfl
  · intro found hfound
    obtain rfl := Option.some.inj hfound
    exact hmembers

/-- The membership that is read is the one member. -/
theorem recover_eq (h : Chronicle id all log s) {initial : NodeSet}
    (hinitial : initial = .single id) (applied : ℕ) :
    Membership.recover (s.base initial) log applied = .settled (.single id) := by
  have hbase : s.base initial = .single id := by
    cases hsnapshot : s.snapshot with
    | none =>
        unfold Stored.base
        rw [hsnapshot]
        exact hinitial
    | some snapshot =>
        rw [Stored.base_of_snapshot hsnapshot]
        exact h.members snapshot hsnapshot
  have hplain : ∀ entry ∈ log.entries, entry.config? = none := by
    intro entry hentry
    rw [h.drop] at hentry
    exact h.plain entry (List.mem_of_mem_drop hentry)
  have hcommitted : (Membership.recover (s.base initial) log applied).committed =
      .single id := by
    rw [Membership.committed_recover, hbase, membersAfter_of_changes_eq_zero]
    apply List.countP_eq_zero.mpr
    intro entry hentry
    have hin := List.mem_of_mem_filter ((List.takeWhile_sublist _).subset hentry)
    rw [hplain entry hin]
    simp
  have hpending : Membership.lastConfig? (log.entriesAfter applied) = none := by
    unfold Membership.lastConfig?
    rw [List.getLast?_eq_none_iff, List.filterMap_eq_nil_iff]
    intro entry hentry
    rw [hplain entry (List.mem_of_mem_filter hentry)]
    rfl
  calc Membership.recover (s.base initial) log applied
    _ = ⟨(Membership.recover (s.base initial) log applied).committed,
        Membership.lastConfig? (log.entriesAfter applied)⟩ := rfl
    _ = .settled (.single id) := by
      rw [hcommitted, hpending]
      rfl

/-- A consumer that has nothing is brought up to the snapshot. -/
theorem ensures_catchUp (h : Chronicle id all log s) (hlength : IsWord all.length)
    (disk : σ) :
    Ensures (Durable.catchUp s.snapshot) ⟨disk, {}⟩
      (fun applied d => applied = log.snapshotIndex ∧ d.disk = disk ∧
        d.recorder.record = recordAfter (all.take log.snapshotIndex))
      fun _ => False := by
  have hboundary := h.boundary
  unfold Stored.boundary at hboundary
  unfold Durable.catchUp
  rw [Ensures.get_bind_iff]
  cases hsnapshot : s.snapshot with
  | none =>
      rw [hsnapshot] at hboundary
      have hzero : 0 = log.snapshotIndex := hboundary
      rw [← hzero]
      exact ⟨rfl, rfl, rfl⟩
  | some found =>
      rw [hsnapshot] at hboundary
      have hindex : found.index = log.snapshotIndex := hboundary
      refine Ensures.ite (fun _ => ?_) fun hnone => ?_
      · have hfits : (recordAfter (all.take found.index)).Fits :=
          recordAfter_fits (h.numbered.of_isPrefix (List.take_prefix _ _))
            (hlength.of_le (List.length_take_le' _ _))
        have hrestored : Recorder.restore {} found.data =
            .ok ⟨recordAfter (all.take found.index), 0, 1, false⟩ := by
          unfold Recorder.restore
          rw [h.data found hsnapshot, Record.decode?_encode, if_pos hfits]
        dsimp only
        rw [hrestored, ← hindex]
        exact ⟨rfl, rfl, rfl⟩
      · have hzero : found.index = 0 := Nat.eq_zero_of_not_pos hnone
        rw [← hindex, hzero]
        exact ⟨rfl, rfl, rfl⟩

end Chronicle

/-! ## On a disk that never fails -/

namespace Journal

/-- The disk has the chronicle, and the given term and vote. -/
def Tells (Holds : σ → Stored → Prop) (id : ℕ) (all : List Entry) (hard : HardState)
    (j : Journal σ) : Prop :=
  ∃ s, Holds j.disk s ∧ s.hardState = hard ∧ Chronicle id all j.log s

variable [Storage σ] {j : Journal σ} (hretains : Storage.Retains Holds IsWord False)

omit [Storage σ] in
theorem Tells.chronicle (h : j.Tells Holds id all hard) :
    ∃ s, Chronicle id all j.log s := by
  obtain ⟨s, -, -, hchronicle⟩ := h
  exact ⟨s, hchronicle⟩

omit [Storage σ] in
theorem Tells.lastIndex_eq (h : j.Tells Holds id all hard) :
    j.log.lastIndex = all.length := by
  obtain ⟨s, hchronicle⟩ := h.chronicle
  exact hchronicle.lastIndex_eq

include hretains

theorem Tells.append (h : j.Tells Holds id all hard) {term : ℕ} {payload : Payload}
    (hplain : Entry.config? ⟨term, all.length + 1, payload⟩ = none)
    (hwithin : j.log.Within term) (hterm : IsWord term)
    (hindex : IsWord (all.length + 1)) :
    Ensures (append term payload) j
      (fun index j' => index = all.length + 1 ∧
        j'.log = j.log.push ⟨term, index, payload⟩ ∧
        j'.Tells Holds id (all ++ [⟨term, index, payload⟩]) hard)
      fun _ => False := by
  have hlast := h.lastIndex_eq
  obtain ⟨s, hdisk, hhard, hchronicle⟩ := h
  have hkeeps : j.Keeps Holds s := by
    unfold Journal.Keeps
    rw [← hchronicle.entries]
    exact hdisk
  have hfits : Entry.Fits IsWord ⟨term, j.log.lastIndex + 1, payload⟩ := by
    rw [hlast]
    exact Entry.fits_of_plain hterm hindex hplain
  refine (hkeeps.append hretains hfits).imp ?_
  rintro index j' ⟨rfl, hlog, hkept⟩
  rw [hlast] at hlog ⊢
  refine ⟨rfl, hlog, { s with entries := j'.log.entries }, hkept, hhard, ?_⟩
  rw [hlog]
  exact hchronicle.push rfl hplain hwithin

/-- The first entries go into a snapshot. -/
theorem Tells.compacted (h : j.Tells Holds id all hard) {snapshot : Snapshot}
    (hlt : j.log.snapshotIndex < snapshot.index) (hle : snapshot.index ≤ all.length)
    (hterm : j.log.termAt? snapshot.index = some snapshot.term)
    (hmembers : snapshot.members = .single id)
    (hdata : snapshot.data = (recordAfter (all.take snapshot.index)).encode)
    (hfits : snapshot.Fits IsWord) :
    Ensures (Storage.saveSnapshot snapshot) j.disk
      (fun _ disk => Ensures (compactTo snapshot.index snapshot.term) ⟨j.log, disk⟩
        (fun _ j' => j'.log = j.log.dropThrough snapshot.index snapshot.term ∧
          j'.Tells Holds id all hard)
        fun _ => False)
      fun _ => False := by
  obtain ⟨s, hdisk, hhard, hchronicle⟩ := h
  refine (hretains.saveSnapshot snapshot hfits j.disk s hdisk).mono
    (fun _ disk hsaved => ?_) fun _ hfails => hfails
  have hkeeps : Journal.Keeps Holds { s with snapshot := some snapshot }
      ⟨j.log, disk⟩ := by
    unfold Journal.Keeps
    rw [← hchronicle.entries]
    exact hsaved
  refine (hkeeps.compactTo hretains hchronicle.sound.gapless hlt _).imp ?_
  rintro - j' ⟨hlog, hkept⟩
  refine ⟨hlog, _, hkept, hhard, ?_⟩
  rw [hlog]
  exact hchronicle.dropThrough hlt hle hterm hmembers hdata

/-- The log is read off the disk as it was. -/
theorem Tells.load_eq (h : j.Tells Holds id all hard) :
    Log.load j.log.snapshotIndex j.log.snapshotTerm j.disk = .ok j.log j.disk := by
  obtain ⟨s, hdisk, hhard, hchronicle⟩ := h
  have hstep : j.InStep Holds := by
    refine ⟨hchronicle.sound, s, ?_⟩
    unfold Journal.Keeps
    rw [← hchronicle.entries]
    exact hdisk
  exact hstep.load_eq hretains

end Journal

end Consensus
