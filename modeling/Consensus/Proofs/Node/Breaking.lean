import Consensus.Proofs.Node.Fitness

/-!
# What a failing deed leaves on the disk

When a write fails, what is stored is between two states of the node.  For all
deeds but one that does not matter: what is stored is still a log from which a
node can start, and nothing in it is new.

The exception is a snapshot that contradicts the log.  It is stored before the
log is given up, so if the log cannot be cut the disk is torn: entries that do
not follow the snapshot come after it.
-/

namespace Consensus

open Storage (Faithful)

/-- The disk has the snapshot that a leader sent, and after it entries of a log
that had another entry, or none, where the snapshot ends. -/
def Stored.Torn (s : Stored) (event : Event) (old : Log) : Prop :=
  ∃ ticket request, event = .installRequest ticket request ∧
    s.snapshot = some request.snapshot ∧
    old.termAt? request.lastIncludedIndex ≠ some request.lastIncludedTerm ∧
    ∃ entry ∈ s.entries, request.lastIncludedIndex < entry.index

/-- A node can start on the disk with a consumer that has applied so much, and
gets a log in which only the event brought anything new. -/
structure Stored.Usable (s : Stored) (event : Event) (old : Log)
    (applied : ℕ) : Prop where
  sane : s.Sane
  descends : ∃ shared, s.log.Descends old event.Brings shared
  reach : applied ≤ s.log.lastIndex

namespace Node

variable {σ : Type} [Storage σ] [Faithful σ] {n : Node σ} {event : Event}
  {old : Log} {disk : σ} {j : Journal σ} {s : Stored}

theorem Fit.log_stored (h : n.Fit) : (Faithful.stored n.disk).log = n.log :=
  Stored.log_eq h.mirrored h.sound h.boundary h.boundaryTerm

theorem Fit.sane (h : n.Fit) : (Faithful.stored n.disk).Sane where
  sound := by
    rw [h.log_stored]
    exact h.sound
  within := by
    rw [h.log_stored, h.hard]
    exact h.within
  written := h.written

theorem Fit.usable (h : n.Fit)
    (hdescends : ∃ shared, n.log.Descends old event.Brings shared) :
    (Faithful.stored n.disk).Usable event old n.standing.lastApplied := by
  refine ⟨h.sane, ?_, ?_⟩
  · rw [h.log_stored]
    exact hdescends
  · rw [h.log_stored]
    exact h.applied_le_last

theorem Apt.usable (h : Apt event old n) :
    (Faithful.stored n.disk).Usable event old n.standing.lastApplied :=
  h.fit.usable h.descends

/-- A disk with a new snapshot, on which the log is read as one that starts
there. -/
theorem Apt.usable_of_rebased (h : Apt event old n) (hold : old.Sound)
    {snapshot : Snapshot}
    (hlog : n.log.Rebased snapshot.index snapshot.term s.log)
    (hsnapshot : s.snapshot = some snapshot)
    (hhard : s.hardState = (Faithful.stored n.disk).hardState)
    (hwritten : snapshot.Written)
    (hterm : snapshot.term ≤ n.standing.currentTerm)
    (hreach : n.standing.lastApplied ≤ snapshot.index) :
    s.Usable event old n.standing.lastApplied := by
  obtain ⟨shared, hdescends⟩ := h.descends
  refine ⟨⟨hlog.sound, ?_, fun found hfound => ?_⟩,
    hlog.descends hold hdescends, hreach.trans hlog.le_lastIndex⟩
  · rw [hhard, h.fit.hard]
    exact hlog.within h.fit.within hterm
  · rw [hsnapshot] at hfound
    exact Option.some.inj hfound ▸ hwritten

/-! ## Entries of a leader -/

/-- If the entries of a leader cannot be taken over, at most the conflict is
gone. -/
theorem Apt.usable_of_merging (h : Apt event old n) {request : AppendRequest}
    {e : Error} (htakes : n.Takes event request)
    (hrun : Journal.appendFromLeader request.prevIndex request.entries
      n.toJournal = .error e j) :
    (Faithful.stored j.disk).Usable event old n.standing.lastApplied := by
  obtain ⟨kept, early, fresh, hjoins⟩ := h.exists_joins htakes
  obtain ⟨hlog, hmirrored⟩ := (Journal.ensures_appendFromLeader h.fit.sound
    h.fit.mirrored hjoins).error hrun
  have hcut : ∃ kept, n.log.Follows kept [] ∧ n.standing.lastApplied ≤ kept ∧
      j.log = n.log.splice kept [] := by
    rcases hlog with hsame | ⟨hcommitted, hcut⟩
    · refine ⟨n.log.lastIndex, Log.follows_nil h.fit.sound.boundary_le_last le_rfl,
        h.fit.applied_le_last, ?_⟩
      rw [hsame, h.fit.sound.gapless.splice_lastIndex, List.append_nil]
    · exact ⟨kept, Log.follows_nil hjoins.follows.boundary_le
        hjoins.follows.le_last, h.fit.applied_le.trans hcommitted, hcut⟩
  obtain ⟨kept, hfollows, happlied, hcut⟩ := hcut
  have hsplices : Splices event n kept [] j := {
    follows := hfollows
    applied_le := happlied
    log := hcut
    mirrored := hmirrored
    disk := (Journal.spares_appendFromLeader _ _ _).error hrun
    terms := fun _ hentry => absurd hentry List.not_mem_nil
    brought := fun _ hentry => absurd hentry List.not_mem_nil }
  exact (hsplices.fit h.fit).usable (hsplices.descends h)

/-! ## Snapshots -/

/-- What is read of a log that is covered by a snapshot from its end. -/
theorem rebased_of_covered {log : Log} {snapshot : Snapshot} (hsound : log.Sound)
    (hlt : log.snapshotIndex < snapshot.index)
    (hsnapshot : s.snapshot = some snapshot)
    (hentries : s.entries = log.entries ∨ s.entries = [])
    (hfits : log.termAt? snapshot.index = some snapshot.term ∨
      ∀ entry ∈ s.entries, entry.index ≤ snapshot.index) :
    log.Rebased snapshot.index snapshot.term s.log := by
  obtain ⟨hindex, hterm⟩ := Stored.boundary_of_snapshot hsnapshot
  have hnone : s.log.entries = [] →
      log.Rebased snapshot.index snapshot.term s.log := by
    intro hempty
    have hlog : s.log = ⟨[], snapshot.index, snapshot.term⟩ := by
      rw [← hempty, ← hindex, ← hterm]
      rfl
    rw [hlog]
    exact log.rebased_base (Nat.zero_lt_of_lt hlt) _
  rcases hentries with hsame | hempty
  · have hlog := Stored.log_eq_dropThrough hsame hsound
    rw [hindex, hterm] at hlog
    rcases hfits with hfits | hcovered
    · rw [hlog]
      exact hsound.rebased_dropThrough hlt.le hfits
    · refine hnone (List.eq_nil_iff_forall_not_mem.mpr fun entry hentry => ?_)
      rw [hlog] at hentry
      obtain ⟨hin, hbeyond⟩ := hsound.gapless.mem_dropThrough hlt.le hentry
      exact absurd (hcovered entry (hsame ▸ hin)) (not_le.mpr hbeyond)
  · refine hnone ?_
    rw [Stored.log_of_nil hempty]

/-- If the log cannot be given the base of a snapshot that was stored, the disk is
usable unless it is torn. -/
theorem Apt.usable_or_torn_of_rebasing (h : Apt event old n) (hold : old.Sound)
    {request : InstallRequest} {e : Error} (hadmits : n.Admits event request)
    (hsaved : Storage.saveSnapshot request.snapshot n.disk = .ok () disk)
    (hrun : Journal.rebase request.lastIncludedIndex request.lastIncludedTerm
      ⟨n.log, disk⟩ = .error e j) :
    (Faithful.stored j.disk).Usable event old n.standing.lastApplied ∨
      (Faithful.stored j.disk).Torn event old := by
  have hrequest := hadmits.isSound h.suits
  have hlt : n.log.snapshotIndex < request.lastIncludedIndex :=
    h.fit.boundary_le.trans_lt hadmits.new
  have hdisk := (Faithful.saveSnapshot request.snapshot n.disk).ok hsaved
  have hmirrored : Journal.Mirrored ⟨n.log, disk⟩ :=
    (congrArg Stored.entries hdisk).trans h.fit.mirrored
  have hentries := (Journal.ensures_rebase (j := ⟨n.log, disk⟩) h.fit.sound
    hmirrored hlt request.lastIncludedTerm).error hrun
  have hspared := (Journal.spares_rebase _ _ ⟨n.log, disk⟩).error hrun
  have hsnapshot : (Faithful.stored j.disk).snapshot = some request.snapshot := by
    rw [hspared.snapshot, hdisk]
  have hhard : (Faithful.stored j.disk).hardState =
      (Faithful.stored n.disk).hardState := by
    rw [hspared.hardState, hdisk]
  by_cases hfits : n.log.termAt? request.lastIncludedIndex =
      some request.lastIncludedTerm ∨
    ∀ entry ∈ (Faithful.stored j.disk).entries,
      entry.index ≤ request.lastIncludedIndex
  · have hrebased : n.log.Rebased request.snapshot.index request.snapshot.term
        (Faithful.stored j.disk).log :=
      rebased_of_covered h.fit.sound hlt hsnapshot hentries hfits
    exact Or.inl (h.usable_of_rebased hold hrebased hsnapshot hhard
      hrequest.written (hrequest.term_le.trans hadmits.term.le) hadmits.new.le)
  · rw [not_or, not_forall₂] at hfits
    obtain ⟨hterm, entry, hentry, hbeyond⟩ := hfits
    obtain ⟨ticket, rfl⟩ := hadmits.event
    refine Or.inr ⟨ticket, request, rfl, hsnapshot, ?_, entry, hentry,
      not_le.mp hbeyond⟩
    rw [← h.ahead ticket request rfl hadmits.new]
    exact hterm

/-- If a log that was compacted cannot drop what its snapshot covers, that is done
at the next start. -/
theorem Apt.usable_of_compacting (h : Apt event old n) (hold : old.Sound)
    {term : ℕ} {e : Error} (hlong : n.Overflows term)
    (hsaved : Storage.saveSnapshot (n.ownSnapshot term) n.disk = .ok () disk)
    (hrun : Journal.compactTo n.standing.lastApplied term ⟨n.log, disk⟩ =
      .error e j) :
    (Faithful.stored j.disk).Usable event old n.standing.lastApplied := by
  have hdisk := (Faithful.saveSnapshot (n.ownSnapshot term) n.disk).ok hsaved
  have hsame := ((Journal.ensures_compactTo ⟨n.log, disk⟩ hlong.new term).error
    hrun).2
  have hsnapshot : (Faithful.stored j.disk).snapshot =
      some (n.ownSnapshot term) := by
    rw [hsame, hdisk]
  have hhard : (Faithful.stored j.disk).hardState =
      (Faithful.stored n.disk).hardState := by
    rw [hsame, hdisk]
  have hentries : (Faithful.stored j.disk).entries = n.log.entries := by
    rw [hsame, hdisk]
    exact h.fit.mirrored
  have hrebased : n.log.Rebased (n.ownSnapshot term).index term
      (Faithful.stored j.disk).log :=
    rebased_of_covered h.fit.sound hlong.new hsnapshot (Or.inl hentries)
      (Or.inl hlong.term)
  exact h.usable_of_rebased hold hrebased hsnapshot hhard
    ⟨n.recorder.record, h.fit.record, rfl⟩
    (h.fit.sound.termAt?_le h.fit.within hlong.term) le_rfl

/-! ## All deeds -/

/-- A deed that fails leaves a disk that is usable or torn. -/
theorem Breaks.usable_or_torn (hbreaks : n.Breaks event disk) (hold : old.Sound)
    (h : Apt event old n) :
    (Faithful.stored disk).Usable event old n.standing.lastApplied ∨
      (Faithful.stored disk).Torn event old := by
  have hsame : ∀ {disk : σ}, Faithful.stored disk = Faithful.stored n.disk →
      (Faithful.stored disk).Usable event old n.standing.lastApplied :=
    fun hdisk => hdisk ▸ h.usable
  cases hbreaks with
  | turning hturns hchanged hrun =>
      exact Or.inl (hsame ((Faithful.saveHardState _ n.disk).error hrun))
  | appending hrole hrun =>
      exact Or.inl (hsame ((Journal.ensures_append _ _ _).error hrun).2)
  | merging htakes hrun => exact Or.inl (h.usable_of_merging htakes hrun)
  | receiving hadmits hrun =>
      exact Or.inl (hsame ((Faithful.saveSnapshot _ n.disk).error hrun))
  | rebasing hadmits hsaved hrun =>
      exact h.usable_or_torn_of_rebasing hold hadmits hsaved hrun
  | restoring hadmits hsaved hrun hrestored =>
      have hrequest := hadmits.isSound h.suits
      obtain ⟨m, hm⟩ :=
        hrequest.written.exists_restore hrequest.index_lt n.recorder
      exact absurd (hm.symm.trans hrestored) (by simp)
  | applying => exact Or.inl h.usable
  | measuring => exact Or.inl h.usable
  | saving hlong hrun =>
      exact Or.inl (hsame ((Faithful.saveSnapshot _ n.disk).error hrun))
  | compacting hlong hsaved hrun =>
      exact Or.inl (h.usable_of_compacting hold hlong hsaved hrun)
  | sending => exact Or.inl h.usable

/-- Whatever an event does before a deed fails, the disk is usable or torn then, and
the consumer is not ahead of it. -/
theorem Halts.usable_or_torn {n' : Node σ} (h : Halts event n n') (hn : n.Fit)
    (hsuits : event.Suits n) : ∃ applied, n'.recorder.record.Below applied ∧
      ((Faithful.stored n'.disk).Usable event n.log applied ∨
        (Faithful.stored n'.disk).Torn event n.log) := by
  obtain ⟨m, hcourse, hfails⟩ := h
  have hm : Apt event n.log m := hcourse.apt hn.sound (hn.apt hsuits)
  refine ⟨m.standing.lastApplied, ?_, hfails.breaks.usable_or_torn hn.sound hm⟩
  rw [hfails.recorder]
  exact hm.fit.record

end Node

end Consensus
