import Consensus.Proofs.Node.Breaking
import Consensus.Proofs.Node.Resuming
import Consensus.Proofs.World.Basic

/-!
# Starting again after any failing write

A node starts on an empty disk and handles any events, where leaders send what
correct leaders send.  Which writes fail is laid down on the disk.  A write that
fails ends the node; it may also stop between two events.  Then it starts again
over what is stored, with the consumer that outlived it or with a fresh one.

Wherever a write fails, the node starts again and has no entry in its log that
was not in its place before, but for what the event brought: unless the write was
to cut a log that contradicts the snapshot of a leader, which is stored by then.
In that one case the entries left over make the start fail, or come back.
-/

namespace Consensus

open Storage (Faithful)

namespace Node

/-! ## Fit from the start -/

section

variable {σ : Type} [Storage σ] [Faithful σ] {n : Node σ} {settings : Settings}
  {d : Durable σ}

/-- A node that starts on what makes sense is fit. -/
theorem Resumes.fit (h : Resumes settings d n)
    (hsane : (Faithful.stored d.disk).Sane)
    (hrecord : d.recorder.record.Below d.recorder.lastApplied) : n.Fit := by
  have hhard : n.standing.hardState = (Faithful.stored d.disk).hardState := by
    rw [h.standing]
    rfl
  have hcommit : n.standing.commitIndex = n.standing.lastApplied := by
    rw [h.standing]
    rfl
  exact {
    sound := h.log ▸ hsane.sound
    mirrored := congrArg Stored.entries h.disk
    boundary := by
      rw [h.log, h.disk]
      rfl
    boundaryTerm := by
      rw [h.log, h.disk]
      rfl
    written := by
      rw [h.disk]
      exact hsane.written
    hard := by
      rw [h.disk, hhard]
    saved := h.persisted.trans hhard.symm
    within := by
      have hterm : n.standing.currentTerm = _ :=
        congrArg HardState.currentTerm hhard
      rw [h.log, hterm]
      exact hsane.within
    boundary_le := by
      rw [h.log]
      exact h.caughtUp.boundary_le
    applied_le := hcommit.ge
    applied_le_last := h.applied_le
    record := h.caughtUp.below hsane.written hrecord }

end

end Node

/-- A consumer that is durable or fresh got no further than it says. -/
theorem Recorder.Replaces.below {recorder old : Recorder}
    (h : recorder.Replaces old) {bound : ℕ} (hold : old.record.Below bound) :
    recorder.record.Below recorder.lastApplied := by
  rcases h with ⟨rfl, hdurable⟩ | hfresh
  · refine ⟨hold.entries, ?_⟩
    unfold Recorder.lastApplied
    rw [if_pos hdurable]
  · rw [hfresh]
    exact Record.below_empty _

namespace Node

/-! ## Lives -/

variable {n n' m : Node Fallible} {event : Event} {e : Error}
  {settings : Settings} {recorder : Recorder}

/-- The node is one that began on an empty disk, and has handled what suited it
since, with any number of stops and of writes that failed. -/
inductive Reached [Counting] : Node Fallible → Prop
  | started {settings : Settings} {recorder : Recorder} {verdicts : List Bool}
      {d : Durable Fallible} {n : Node Fallible} (hfresh : recorder.record = {})
      (hrun : recover settings ⟨⟨{}, verdicts⟩, recorder⟩ = .ok n d) :
      Reached n
  | handled {event : Event} {n n' : Node Fallible} (hn : Reached n)
      (hsuits : event.Suits n) (hrun : handle event n = .ok () n') :
      Reached { n' with effects := [] }
  | restarted {settings : Settings} {recorder : Recorder}
      {verdicts : List Bool} {d : Durable Fallible} {n m : Node Fallible}
      (hn : Reached n) (hreplaces : recorder.Replaces n.recorder)
      (hrun : recover settings ⟨⟨n.disk.stored, verdicts⟩, recorder⟩ =
        .ok m d) : Reached m
  | resumed {settings : Settings} {recorder : Recorder} {verdicts : List Bool}
      {d : Durable Fallible} {event : Event} {e : Error}
      {n n' m : Node Fallible} (hn : Reached n) (hsuits : event.Suits n)
      (hfailed : handle event n = .error e n')
      (hwhole : ¬ n'.disk.stored.Torn event n.log)
      (hreplaces : recorder.Replaces n'.recorder)
      (hrun : recover settings ⟨⟨n'.disk.stored, verdicts⟩, recorder⟩ =
        .ok m d) : Reached m

theorem sane_empty : Stored.Sane {} where
  sound := ⟨.nil 0, trivial, fun _ => rfl⟩
  within := ⟨le_rfl, fun _ hentry => absurd hentry List.not_mem_nil⟩
  written _ hsnapshot := absurd hsnapshot (by simp)

/-- What is left of a fit node when a write fails, and what it had before. -/
theorem Fit.usable_or_torn (hn : n.Fit) (hsuits : event.Suits n)
    (hrun : handle event n = .error e n') :
    ∃ applied, n'.recorder.record.Below applied ∧
      (n'.disk.stored.Usable event n.log applied ∨
        n'.disk.stored.Torn event n.log) :=
  ((handle_runs hn.saved event).error hrun).usable_or_torn hn hsuits

theorem Reached.fit (h : Reached n) : n.Fit := by
  induction h with
  | started hfresh hrun =>
      refine ((ensures_recover _ _).ok hrun).fit sane_empty ?_
      rw [hfresh]
      exact Record.below_empty _
  | @handled event n n' hn hsuits hrun ih =>
      have hcourse := (handle_runs ih.saved event).ok hrun
      have hdrained : Alike n' { n' with effects := [] } :=
        ⟨rfl, rfl, rfl, rfl, rfl, rfl⟩
      exact (hcourse.apt ih.sound (ih.apt hsuits)).fit.alike hdrained
  | restarted hn hreplaces hrun ih =>
      exact ((ensures_recover _ _).ok hrun).fit ih.sane
        (hreplaces.below ih.record)
  | resumed hn hsuits hfailed hwhole hreplaces hrun ih =>
      obtain ⟨applied, hrecord, hleft⟩ := ih.usable_or_torn hsuits hfailed
      have husable := hleft.resolve_right hwhole
      exact ((ensures_recover _ _).ok hrun).fit husable.sane
        (hreplaces.below hrecord)

/-! ## After a failing write -/

/-- A node starts on what is stored, if no write fails any more.  Each entry in
its log was in the log of the old node, which had the boundary before it, or is
one that the event brought. -/
def Recovers (old : Node Fallible) (event : Event) (settings : Settings)
    (recorder : Recorder) (s : Stored) : Prop :=
  ∃ (n : Node Fallible) (d : Durable Fallible),
    recover settings ⟨⟨s, []⟩, recorder⟩ = .ok n d ∧
    ∀ entry ∈ n.log.entries,
      entry ∈ old.log.entries ∧
          old.log.termAt? n.log.snapshotIndex = some n.log.snapshotTerm ∨
        event.Brings entry

theorem not_refusesDrop (s : Stored) :
    ¬ Storage.RefusesDrop (⟨s, []⟩ : Fallible) := by
  rintro ⟨e, disk, hrun⟩
  have hworks : Storage.compactTo s.boundary (⟨s, []⟩ : Fallible) =
      .ok () ⟨s.drop s.boundary, []⟩ := rfl
  exact absurd (hworks.symm.trans hrun) (by simp)

/-- Where no write fails, a node starts if it may. -/
theorem exists_recover {s : Stored}
    (h : MayStart settings (⟨⟨s, []⟩, recorder⟩ : Durable Fallible)) :
    ∃ (m : Node Fallible) (d : Durable Fallible),
      recover settings ⟨⟨s, []⟩, recorder⟩ = .ok m d ∧
        Resumes settings (⟨⟨s, []⟩, recorder⟩ : Durable Fallible) m := by
  have hensures := ensures_recover settings
    (⟨⟨s, []⟩, recorder⟩ : Durable Fallible)
  cases hrun : recover settings (⟨⟨s, []⟩, recorder⟩ : Durable Fallible) with
  | error e d =>
      have hrefused := (hensures.error hrun).2 h
      exact absurd hrefused (not_refusesDrop s)
  | ok m d => exact ⟨m, d, rfl, hensures.ok hrun⟩

theorem recovers_of_usable {s : Stored} {applied : ℕ}
    (h : s.Usable event n.log applied) (hvalid : settings.validate = .ok ())
    (hreach : recorder.lastApplied ≤ applied)
    (hwords : ∀ snapshot, s.snapshot = some snapshot →
      snapshot.index < wordBound) : n.Recovers event settings recorder s := by
  have hmay : MayStart settings (⟨⟨s, []⟩, recorder⟩ : Durable Fallible) :=
    ⟨hvalid, h.sane, hreach.trans h.reach, hwords⟩
  obtain ⟨m, d, hrun, hresumes⟩ := exists_recover hmay
  have hlog : m.log = s.log := hresumes.log
  obtain ⟨shared, hdescends⟩ := h.descends
  refine ⟨m, d, hrun, fun entry hentry => ?_⟩
  rw [hlog] at hentry ⊢
  exact hdescends.comes h.sane.sound hentry

/-- On a torn disk an entry comes back that does not follow the snapshot, if the
start does not fail. -/
theorem not_recovers_of_torn {s : Stored} (h : s.Torn event n.log) :
    ¬ n.Recovers event settings recorder s := by
  obtain ⟨ticket, request, rfl, hsnapshot, hterm, entry, hentry, hlt⟩ := h
  rintro ⟨m, d, hrun, hentries⟩
  have hlog : m.log = s.log := ((ensures_recover settings _).ok hrun).log
  obtain ⟨hindex, hboundary⟩ := Stored.boundary_of_snapshot hsnapshot
  rw [hlog] at hentries
  have hread : entry ∈ s.log.entries :=
    Stored.mem_log hentry (hindex.trans_lt hlt)
  rcases hentries entry hread with ⟨-, hfits⟩ | hbrings
  · change n.log.termAt? s.boundary = some s.boundaryTerm at hfits
    rw [hindex, hboundary] at hfits
    exact hterm hfits
  · exact hbrings.elim

theorem lastApplied_le (h : recorder = m.recorder ∨ recorder.record = {})
    {applied : ℕ} (hrecord : m.recorder.record.Below applied) :
    recorder.lastApplied ≤ applied := by
  unfold Recorder.lastApplied
  split
  · rcases h with rfl | hfresh
    · exact hrecord.lastApplied
    · rw [hfresh]
      exact Nat.zero_le _
  · exact Nat.zero_le _

/-- Two entries of the leader of term 1. -/
def firstRequest : AppendRequest :=
  ⟨1, 2, 0, 0, [⟨1, 1, .noop⟩, ⟨1, 2, .command [120]⟩], 0⟩

/-- A snapshot of the leader of term 2, which has another first entry. -/
def secondRequest : InstallRequest :=
  ⟨2, 3, 1, 2, .ofList [1, 2, 3], ({} : Record).encode⟩

/-- Node 1 of three, which follows and has applied nothing. -/
def oneOfThree (term : ℕ) (leader : Option ℕ) (entries : List Entry)
    (verdicts : List Bool) : Node Fallible where
  log := ⟨entries, 0, 0⟩
  disk := ⟨{ hardState := ⟨term, none⟩, entries := entries }, verdicts⟩
  standing := { currentTerm := term, leader := leader }
  settings := { members := [1, 2, 3] }
  membership := .settled (.ofList [1, 2, 3])
  peers := ∅
  commandWaiters := ∅
  changeWaiters := ∅
  persisted := ⟨term, none⟩
  recorder := {}
  effects := []

theorem suits_firstRequest (verdicts : List Bool) :
    firstRequest.Suits (oneOfThree 0 none [] verdicts) where
  numbered := .cons rfl (.cons rfl (.nil 2))
  rising := ⟨by decide, by decide, trivial⟩
  terms := by decide
  agrees entry hentry hle := by
    have hpos : ∀ entry ∈ firstRequest.entries, 0 < entry.index := by decide
    exact absurd hle (not_le.mpr (hpos entry hentry))

theorem isSound_secondRequest : secondRequest.IsSound :=
  ⟨by decide, by decide, {}, Record.below_empty _, rfl⟩

/-- The node has taken the entries in, whatever writes are to fail later. -/
theorem reached_oneOfThree (verdicts : List Bool) :
    Reached (oneOfThree 1 (some 2) firstRequest.entries verdicts) := by
  let verdicts' := true :: true :: verdicts
  have hstart : recover { members := [1, 2, 3] } ⟨⟨{}, verdicts'⟩, {}⟩ =
      .ok (oneOfThree 0 none [] verdicts') ⟨⟨{}, verdicts'⟩, {}⟩ := rfl
  have hsuits : Event.Suits (.appendRequest 0 firstRequest)
      (oneOfThree 0 none [] verdicts') := suits_firstRequest verdicts'
  exact .handled (.started rfl hstart) hsuits rfl

end Node

end Consensus
