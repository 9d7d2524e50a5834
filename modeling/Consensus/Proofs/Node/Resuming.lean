import Consensus.Node.Recovery
import Consensus.Proofs.Mirrored

/-!
# What a start does

A node that starts reads its log off the disk, drops what the snapshot covers,
and brings a consumer that is behind the snapshot up to it.  Nothing else changes
on the disk.  A start is refused only if what is stored makes no sense, if the
consumer is ahead of the log, or if the disk fails.
-/

namespace Consensus

open Storage (Faithful)

variable {σ : Type} [Storage σ]

/-! ## Reading the disk -/

section

variable [Faithful σ]

/-- The disk refuses to drop what its snapshot covers. -/
def Storage.RefusesDrop (disk : σ) : Prop :=
  ∃ e disk', Storage.compactTo (Faithful.stored disk).boundary disk =
    .error e disk'

/-- Reading the log drops entries at most. -/
theorem spares_load [Counting] (index term : ℕ) (disk : σ) :
    Ensures (Log.load index term) disk (fun _ => EntriesOnly disk)
      (EntriesOnly disk) := by
  have hdrops : Ensures (Storage.compactTo index) disk
      (fun _ => EntriesOnly disk) (EntriesOnly disk) :=
    (entryWrites_entriesOnly disk).compactTo index disk (.refl disk)
  have hload : Storage.inspect Storage.loadEntries disk =
      .ok (Faithful.stored disk).entries disk := by
    unfold Storage.inspect
    rw [Faithful.loadEntries]
  unfold Log.load
  refine Ensures.bind_of_ok hload (Ensures.ite (fun _ => ?_) fun _ => ?_)
  · refine hdrops.andThen fun _ disk' hdisk' => ?_
    dsimp only
    split
    · exact hdisk'
    · exact hdisk'
  · dsimp only
    split
    · exact .refl disk
    · exact .refl disk

/-- Reading the log drops what the snapshot covers.  It fails if the log has a
flaw, or if the disk fails. -/
theorem ensures_load (disk : σ) :
    Ensures (Log.load (Faithful.stored disk).boundary
        (Faithful.stored disk).boundaryTerm) disk
      (fun log disk' => log = (Faithful.stored disk).log ∧
        Faithful.stored disk' =
          { Faithful.stored disk with entries := log.entries })
      fun disk' => EntriesOnly disk disk' ∧
        ((Faithful.stored disk).log.Sound → Storage.RefusesDrop disk) := by
  let s := Faithful.stored disk
  -- the log is checked last, when the covered entries are gone
  have hunsound : ∀ {flaw}, Log.firstFlaw? (s.boundary + 1) s.boundaryTerm
      s.log.entries = some flaw → ¬s.log.Sound := by
    intro flaw hflaw hsound
    have hnone := firstFlaw?_eq_none_iff.mpr ⟨hsound.numbered, hsound.rising⟩
    exact absurd (hflaw.symm.trans hnone) (by simp)
  have hload : Storage.inspect Storage.loadEntries disk = .ok s.entries disk := by
    unfold Storage.inspect
    rw [Faithful.loadEntries]
  unfold Log.load
  refine Ensures.bind_of_ok hload (Ensures.ite (fun _ => ?_) fun hnone => ?_)
  · refine Ensures.bind (Ensures.of_runs (fun _ disk' hrun => ?_)
      fun e disk' hrun => ?_)
    · have hdisk := (Faithful.compactTo s.boundary disk).ok hrun
      have hsame : EntriesOnly disk disk' := by
        constructor <;> rw [hdisk] <;> rfl
      dsimp only
      split
      · next flaw hflaw =>
          exact ⟨hsame, fun hsound => absurd hsound (hunsound hflaw)⟩
      · next hclean =>
          refine ⟨rfl, ?_⟩
          rw [hdisk]
          exact Stored.drop_boundary (firstFlaw?_eq_none_iff.mp hclean).1
    · have hdisk := (Faithful.compactTo s.boundary disk).error hrun
      exact ⟨.of_stored hdisk, fun _ => ⟨e, disk', hrun⟩⟩
  · dsimp only
    split
    · next flaw hflaw =>
        exact ⟨.refl disk, fun hsound => absurd hsound (hunsound hflaw)⟩
    · have hentries : s.log.entries = s.entries := by
        change s.entries.drop _ = _
        rw [not_not.mp hnone, List.length_nil, List.drop_zero]
      refine ⟨rfl, ?_⟩
      change _ = { s with entries := s.log.entries }
      rw [hentries]

end

/-! ## Catching up -/

/-- How far a consumer has got once it is brought up to the snapshot, and what it
is then. -/
inductive CaughtUp (snapshot : Option Snapshot) (m : Recorder) :
    ℕ → Recorder → Prop
  | ahead (hle : ∀ found, snapshot = some found →
        found.index ≤ m.lastApplied) :
      CaughtUp snapshot m m.lastApplied m
  | restored {found : Snapshot} {m' : Recorder}
      (hsnapshot : snapshot = some found) (hlt : m.lastApplied < found.index)
      (hrestored : m.restore found.data = .ok m') :
      CaughtUp snapshot m found.index m'

theorem ensures_catchUp {τ : Type} (snapshot : Option Snapshot) (d : Durable τ) :
    Ensures (Durable.catchUp snapshot) d
      (fun applied d' => d'.disk = d.disk ∧
        CaughtUp snapshot d.recorder applied d'.recorder)
      fun d' => d'.disk = d.disk ∧ ∃ found e, snapshot = some found ∧
        d.recorder.restore found.data = .error e := by
  unfold Durable.catchUp
  rw [Ensures.get_bind_iff]
  cases snapshot with
  | none => exact ⟨rfl, .ahead fun _ hfound => absurd hfound (by simp)⟩
  | some found =>
      refine Ensures.ite (fun hlt => ?_) fun hle => ?_
      · cases hrestored : d.recorder.restore found.data with
        | error e => exact ⟨rfl, found, e, rfl, hrestored⟩
        | ok m => exact ⟨rfl, .restored rfl hlt hrestored⟩
      · refine ⟨rfl, .ahead fun _ hfound => ?_⟩
        obtain rfl := Option.some.inj hfound
        exact not_lt.mp hle

theorem CaughtUp.boundary_le {s : Stored} {m m' : Recorder} {applied : ℕ}
    (h : CaughtUp s.snapshot m applied m') : s.boundary ≤ applied := by
  cases h with
  | ahead hle =>
      cases hsnapshot : s.snapshot with
      | none =>
          unfold Stored.boundary
          rw [hsnapshot]
          exact Nat.zero_le _
      | some found =>
          rw [(Stored.boundary_of_snapshot hsnapshot).1]
          exact hle found hsnapshot
  | restored hsnapshot => exact (Stored.boundary_of_snapshot hsnapshot).1.le

theorem CaughtUp.applied_eq {s : Stored} {m m' : Recorder} {applied : ℕ}
    (h : CaughtUp s.snapshot m applied m') :
    applied = max s.boundary m.lastApplied := by
  cases h with
  | ahead hle => exact (max_eq_right (CaughtUp.ahead hle).boundary_le).symm
  | restored hsnapshot hlt =>
      rw [(Stored.boundary_of_snapshot hsnapshot).1]
      exact (max_eq_left hlt.le).symm

/-- A consumer that was caught up got no further than it says. -/
theorem CaughtUp.below {snapshot : Option Snapshot} {m m' : Recorder}
    {applied : ℕ} (h : CaughtUp snapshot m applied m')
    (hwritten : ∀ found, snapshot = some found → found.Written)
    (hm : m.record.Below m.lastApplied) : m'.record.Below applied := by
  cases h with
  | ahead => exact hm
  | restored hsnapshot hlt hrestored =>
      exact (hwritten _ hsnapshot).below_restore hrestored

/-! ## Starting -/

omit [Storage σ] in
/-- Reading the disk leaves everything as it is. -/
theorem Durable.onDisk_inspect {α : Type} {read : σ → Except Error α} {a : α}
    {d : Durable σ} (h : read d.disk = .ok a) :
    Durable.onDisk (Storage.inspect read) d = .ok a d := by
  refine onPart_ok (a := a) (t := d.disk) ?_
  unfold Storage.inspect
  rw [h]

namespace Node

variable [Faithful σ]

/-- The node is the one that a start gives. -/
structure Resumes (settings : Settings) (d : Durable σ) (n : Node σ) : Prop where
  valid : settings.validate = .ok ()
  settings : n.settings = settings
  log : n.log = (Faithful.stored d.disk).log
  disk : Faithful.stored n.disk =
    { Faithful.stored d.disk with entries := n.log.entries }
  standing : n.standing =
    .restore (Faithful.stored d.disk).hardState n.standing.lastApplied
  persisted : n.persisted = (Faithful.stored d.disk).hardState
  membership : n.membership = .recover
    ((Faithful.stored d.disk).base (.ofList n.settings.members)) n.log
    n.standing.lastApplied
  caughtUp : CaughtUp (Faithful.stored d.disk).snapshot d.recorder
    n.standing.lastApplied n.recorder
  lastTerm_le : n.log.lastTerm ≤ n.standing.currentTerm
  applied_le : n.standing.lastApplied ≤ n.log.lastIndex
  commandWaiters : n.commandWaiters = ∅
  effects : n.effects = []

/-- What is stored makes sense, and the consumer is not ahead of it. -/
structure MayStart (settings : Settings) (d : Durable σ) : Prop where
  valid : settings.validate = .ok ()
  sane : (Faithful.stored d.disk).Sane
  reach : d.recorder.lastApplied ≤ (Faithful.stored d.disk).log.lastIndex
  words : ∀ snapshot, (Faithful.stored d.disk).snapshot = some snapshot →
    snapshot.index < wordBound

/-- The consumer can be brought up to the snapshot, and is not ahead of the log
then. -/
theorem MayStart.caughtUp_le {settings : Settings} {d : Durable σ}
    (h : MayStart settings d) {applied : ℕ} {m : Recorder}
    (hcaught : CaughtUp (Faithful.stored d.disk).snapshot d.recorder applied m) :
    applied ≤ (Faithful.stored d.disk).log.lastIndex := by
  cases hcaught with
  | ahead => exact h.reach
  | restored hsnapshot =>
      have hbase := h.sane.sound.boundary_le_last
      have hindex := (Stored.boundary_of_snapshot hsnapshot).1
      exact hindex.symm.le.trans hbase

/-- A start gives a node that goes on from what is stored.  It is refused only if
it has to be, or if the disk fails. -/
theorem ensures_recover (settings : Settings) (d : Durable σ) :
    Ensures (recover settings) d (fun n _ => Resumes settings d n)
      fun d' => EntriesOnly d.disk d'.disk ∧
        (MayStart settings d → Storage.RefusesDrop d.disk) := by
  unfold recover
  cases hvalid : settings.validate with
  | error e =>
      refine ⟨.refl d.disk, fun hmay => ?_⟩
      exact absurd (hmay.valid.symm.trans hvalid) (by simp)
  | ok a =>
      dsimp only
      have hhard : Durable.onDisk (Storage.inspect Storage.loadHardState) d =
          .ok (Faithful.stored d.disk).hardState d :=
        Durable.onDisk_inspect (Faithful.loadHardState d.disk)
      have hsnapshot : Durable.onDisk (Storage.inspect Storage.loadSnapshot) d =
          .ok (Faithful.stored d.disk).snapshot d :=
        Durable.onDisk_inspect (Faithful.loadSnapshot d.disk)
      refine Ensures.bind_of_ok hhard (Ensures.bind_of_ok hsnapshot ?_)
      refine Ensures.bind (Ensures.onPart ((ensures_load d.disk).mono ?_ ?_))
      swap
      · exact fun disk h => ⟨h.1, fun hmay => h.2 hmay.sane.sound⟩
      rintro log disk ⟨hlog, hdisk⟩
      have hsame : EntriesOnly d.disk disk := by
        constructor <;> rw [hdisk]
      refine Ensures.ite (fun hbehind => ?_) fun hterm => ?_
      · refine ⟨hsame, fun hmay => absurd hbehind (not_lt.mpr ?_)⟩
        rw [hlog]
        exact Log.lastTerm_le hmay.sane.within
      refine Ensures.andThen ((ensures_catchUp _ ⟨disk, d.recorder⟩).mono
        (fun _ _ hd => hd) fun d' hd => ?_) ?_
      · obtain ⟨hkept, found, e, hfound, hrestored⟩ := hd
        refine ⟨hkept ▸ hsame, fun hmay => ?_⟩
        obtain ⟨m, hm⟩ := (hmay.sane.written found hfound).exists_restore
          (hmay.words found hfound) d.recorder
        exact absurd (hm.symm.trans hrestored) (by simp)
      · rintro applied d' ⟨hkept, hcaught⟩
        refine Ensures.ite (fun hbeyond => ?_) fun hreach => ?_
        · refine ⟨hkept ▸ hsame, fun hmay => absurd hbeyond (not_lt.mpr ?_)⟩
          rw [hlog]
          exact hmay.caughtUp_le hcaught
        · exact {
            valid := hvalid
            settings := rfl
            log := hlog
            disk := (congrArg Faithful.stored hkept).trans hdisk
            standing := rfl
            persisted := rfl
            membership := rfl
            caughtUp := hcaught
            lastTerm_le := not_lt.mp hterm
            applied_le := not_lt.mp hreach
            commandWaiters := rfl
            effects := rfl }

end Node

end Consensus
