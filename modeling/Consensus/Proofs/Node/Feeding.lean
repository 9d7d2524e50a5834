import Consensus.Proofs.Commands
import Consensus.Proofs.Node.Heeding
import Consensus.Proofs.Node.Idle
import Consensus.Proofs.Retention

/-!
# What a consumer is given

A node gives its consumer each command once it is committed, in the order of the log.
The log forgets what a snapshot covers, so the commands are told from a list that keeps
every entry.  As long as a node goes on from what it has applied, this list only changes
after that.  A snapshot that is installed replaces it by the entries that the snapshot
is of.

The consumer has recorded the commands among the applied entries at every moment.  So a
command that it is given is never one that it has.
-/

namespace Consensus

open Storage (Faithful)

/-! ## Effects and events -/

/-- The command, if the effect gives one to the consumer. -/
def Effect.call? : Effect → Option (ℕ × Bytes)
  | .consume index command => some (index, command)
  | _ => none

theorem Effect.IsSlight.call? {effect : Effect} (h : effect.IsSlight) :
    effect.call? = none := by
  cases effect with
  | consume => exact h.elim
  | _ => rfl

/-- The snapshot was written by a consumer that had applied the entries up to its index,
whatever they were. -/
def InstallRequest.IsGenuine (request : InstallRequest) : Prop :=
  ∃ told, Numbered told ∧ told.length = request.lastIncludedIndex ∧
    request.data = (recordAfter told).encode

/-- A snapshot that comes was written by a consumer. -/
def Event.IsGenuine : Event → Prop
  | .installRequest _ request => request.IsGenuine
  | _ => True

theorem Recorder.eq_of_restore {m m' : Recorder} {record : Record}
    (h : m.restore record.encode = .ok m') :
    m' = { m with record := record, restores := m.restores + 1 } := by
  unfold restore at h
  cases hread : Record.decode? record.encode with
  | none =>
      rw [hread] at h
      exact absurd h (by simp)
  | some found =>
      rw [hread] at h
      rw [← Record.eq_of_decode? hread]
      exact (Except.ok.inj h).symm

theorem numbered_iff {entries : List Entry} :
    Numbered entries ↔ NumberedFrom 0 entries := by
  unfold Numbered NumberedFrom
  simp only [Nat.zero_add]

/-- The disk holds the log, and its snapshot was written when the entries that the log
has dropped were applied. -/
structure Stored.Upholds (s : Stored) (all : List Entry) (log : Log) : Prop where
  entries : s.entries = log.entries
  boundary : s.boundary = log.snapshotIndex
  data : ∀ snapshot, s.snapshot = some snapshot →
    snapshot.data = (recordAfter (all.take snapshot.index)).encode

/-- The entries after the snapshot may change. -/
theorem Stored.Upholds.of_snapshot {s s' : Stored} {all all' : List Entry}
    {log log' : Log} (h : s.Upholds all log) (hentries : s'.entries = log'.entries)
    (hsnapshot : s'.snapshot = s.snapshot)
    (hindex : log'.snapshotIndex = log.snapshotIndex)
    (htake : all'.take log.snapshotIndex = all.take log.snapshotIndex) :
    s'.Upholds all' log' := by
  constructor
  · exact hentries
  · unfold Stored.boundary
    rw [hsnapshot, hindex]
    exact h.boundary
  · intro snapshot hfound
    rw [hsnapshot] at hfound
    have hboundary := (boundary_of_snapshot hfound).1.symm.trans h.boundary
    rw [h.data snapshot hfound, hboundary, htake]

/-- A snapshot of what the log has dropped. -/
theorem Stored.upholds_snapshot {s : Stored} {all : List Entry} {log : Log}
    {snapshot : Snapshot} (hentries : s.entries = log.entries)
    (hsnapshot : s.snapshot = some snapshot)
    (hindex : snapshot.index = log.snapshotIndex)
    (hdata : snapshot.data = (recordAfter (all.take snapshot.index)).encode) :
    s.Upholds all log := by
  constructor
  · exact hentries
  · exact (boundary_of_snapshot hsnapshot).1.trans hindex
  · intro found hfound
    obtain rfl := Option.some.inj (hfound.symm.trans hsnapshot)
    exact hdata

/-- A log that gets the base of a snapshot is on the disk as it is in memory. -/
theorem Journal.Keeps.rebase {σ : Type} [Storage σ] {Holds : σ → Stored → Prop}
    {Writable : ℕ → Prop} {fails : Prop} {j : Journal σ} {s : Stored}
    (hretains : Storage.Retains Holds Writable fails) (h : j.Keeps Holds s)
    (hgapless : j.log.Gapless) {index : ℕ} (hlt : j.log.snapshotIndex < index)
    (term : ℕ) :
    Ensures (rebase index term) j (fun _ j' => j'.Keeps Holds s) fun _ => fails := by
  unfold Journal.rebase
  rw [Ensures.get_bind_iff]
  apply Ensures.ite
  · intro _
    exact (h.compactTo hretains hgapless hlt term).imp (fun _ _ hj => hj.2)
  · intro _
    exact (h.resetTo hretains hgapless index term).imp (fun _ _ hj => hj.2)

namespace Node

variable {σ : Type} {n n' m : Node σ} {event : Event} {all all' : List Entry}

/-- The commands that the node gave its consumer, oldest first. -/
def calls (n : Node σ) : List (ℕ × Bytes) := n.effects.filterMap Effect.call?

/-- The list has every entry up to the end of the log, and the consumer has recorded the
commands among those that are applied. -/
structure Spans (all : List Entry) (n : Node σ) : Prop where
  numbered : Numbered all
  entries : n.log.entries = all.drop n.log.snapshotIndex
  applied_le : n.standing.lastApplied ≤ all.length
  record : n.recorder.record = recordAfter (all.take n.standing.lastApplied)

/-- What taking an event in does to the applied entries: nothing, or a snapshot replaces
them that covers more. -/
inductive Onset (event : Event) (all all' : List Entry) (n n' : Node σ) : Prop
  | kept (happlied : n'.standing.lastApplied = n.standing.lastApplied)
      (hrecorder : n'.recorder = n.recorder)
      (htake : all'.take n.standing.lastApplied = all.take n.standing.lastApplied) :
      Onset event all all' n n'
  | restored {ticket : ℕ} {request : InstallRequest}
      (hevent : event = .installRequest ticket request)
      (hnew : n.standing.lastApplied < request.lastIncludedIndex)
      (happlied : n'.standing.lastApplied = request.lastIncludedIndex)
      (hrestored : n.recorder.restore request.data = .ok n'.recorder) :
      Onset event all all' n n'

theorem Onset.trans {all'' : List Entry} (h : Onset event all all' n m)
    (h' : Onset event all' all'' m n') : Onset event all all'' n n' := by
  cases h with
  | kept happlied hrecorder htake =>
      cases h' with
      | kept happlied' hrecorder' htake' =>
          rw [happlied] at happlied' htake'
          exact .kept happlied' (hrecorder'.trans hrecorder) (htake'.trans htake)
      | restored hevent hnew happlied' hrestored =>
          rw [happlied] at hnew
          rw [hrecorder] at hrestored
          exact .restored hevent hnew happlied' hrestored
  | restored hevent hnew happlied hrestored =>
      cases h' with
      | kept happlied' hrecorder' =>
          rw [← hrecorder'] at hrestored
          exact .restored hevent hnew (happlied'.trans happlied) hrestored
      | restored hevent' hnew' =>
          -- a snapshot is not installed twice
          obtain ⟨-, rfl⟩ := Event.installRequest.inj (hevent.symm.trans hevent')
          exact absurd happlied hnew'.ne

/-! ## Applying an entry -/

theorem calls_append {more : List Effect} (heffects : n'.effects = n.effects ++ more)
    (hmore : ∀ effect ∈ more, effect.call? = none) : n'.calls = n.calls := by
  unfold calls
  rw [heffects, List.filterMap_append, List.filterMap_eq_nil_iff.mpr hmore,
    List.append_nil]

theorem Aside.calls (h : Aside n n') : n'.calls = n.calls := by
  obtain ⟨more, heffects, hslight⟩ := h.effects
  exact calls_append heffects fun effect heffect => (hslight effect heffect).call?

/-- Applying an entry gives the consumer its command. -/
theorem consumes_applyEntry (n : Node σ) {entry : Entry} {index : ℕ}
    (hindex : entry.index = index) :
    (n.applyEntry entry index).calls = n.calls ++ entry.call?.toList ∧
      (n.applyEntry entry index).recorder =
        n.recorder.takes entry.call?.toList := by
  let enacted := (n.enact entry index).mapStanding fun s =>
    { s with lastApplied := index }
  have henacted : enacted.calls = n.calls ++ entry.call?.toList ∧
      enacted.recorder = n.recorder.takes entry.call?.toList := by
    change (n.enact entry index).calls = _ ∧ (n.enact entry index).recorder = _
    subst hindex
    unfold enact Entry.call?
    cases entry.payload with
    | noop => exact ⟨(List.append_nil _).symm, rfl⟩
    | command bytes =>
        constructor
        · unfold Node.calls consume emit
          exact List.filterMap_append
        · rfl
    | config members =>
        let adopting : Node σ :=
          { n with membership := n.membership.onCommit entry.index members }
        have haside := aside_syncPeers adopting
        unfold adoptMembers
        dsimp only
        split
        · exact ⟨(haside _ _).calls.trans (List.append_nil _).symm,
            (haside _ _).recorder⟩
        · exact ⟨(List.append_nil _).symm, rfl⟩
  have hcommand : (enacted.answerCommand index entry.term).calls = enacted.calls ∧
      (enacted.answerCommand index entry.term).recorder = enacted.recorder := by
    unfold answerCommand
    split
    · exact ⟨rfl, rfl⟩
    · constructor
      · apply calls_append rfl
        intro effect heffect
        rw [List.mem_singleton.mp heffect]
        rfl
      · rfl
  have hchange := aside_answerChange (enacted.answerCommand index entry.term) index
    entry.term
  rw [applyEntry, answerWaiters_eq]
  exact ⟨hchange.calls.trans (hcommand.1.trans henacted.1),
    hchange.recorder.trans (hcommand.2.trans henacted.2)⟩

/-! ## Taking an event in -/

variable [Storage σ] [Faithful σ]

/-- The list spans the node, and what is on its disk. -/
structure Feeds (all : List Entry) (n : Node σ) : Prop extends Spans all n where
  level : n.Level
  stored : (Faithful.stored n.disk).Upholds all n.log

theorem Feeds.lastIndex_eq (h : Feeds all n) : n.log.lastIndex = all.length := by
  have hboundary := h.level.boundary_le
  have happlied := h.applied_le
  rw [h.level.gapless.lastIndex_eq, h.entries, List.length_drop]
  omega

theorem Feeds.keeps (h : Feeds all n) :
    n.toJournal.Keeps (fun (disk : σ) s => Faithful.stored disk = s)
      (Faithful.stored n.disk) := by
  unfold Journal.Keeps
  rw [← h.stored.entries]

/-- Neither the log nor anything that is applied changes. -/
theorem Feeds.unmoved (h : Feeds all n) (hlevel : n'.Level) (hlog : n'.log = n.log)
    (happlied : n'.standing.lastApplied = n.standing.lastApplied)
    (hrecorder : n'.recorder = n.recorder)
    (hstored : (Faithful.stored n'.disk).entries = (Faithful.stored n.disk).entries)
    (hsnapshot : (Faithful.stored n'.disk).snapshot =
      (Faithful.stored n.disk).snapshot) : Feeds all n' where
  numbered := h.numbered
  entries := by
    rw [hlog]
    exact h.entries
  applied_le := happlied ▸ h.applied_le
  record := by
    rw [hrecorder, happlied]
    exact h.record
  level := hlevel
  stored := h.stored.of_snapshot (by rw [hstored, hlog, h.stored.entries]) hsnapshot
    (by rw [hlog]) rfl

theorem Feeds.aside (h : Feeds all n) (hlevel : n'.Level) (haside : Aside n n') :
    Feeds all n' := by
  apply h.unmoved hlevel haside.log
  · rw [haside.standing]
  · exact haside.recorder
  · rw [haside.disk]
  · rw [haside.disk]

/-- Other entries come after those that are applied. -/
theorem Feeds.splice (h : Feeds all n) (hlevel : n'.Level) {kept : ℕ}
    {fresh : List Entry} (hadjoins : n.log.Adjoins kept fresh)
    (hkept : n.standing.lastApplied ≤ kept)
    (hlog : n'.log = n.log.splice kept fresh)
    (happlied : n'.standing.lastApplied = n.standing.lastApplied)
    (hrecorder : n'.recorder = n.recorder)
    (hkeeps : n'.toJournal.Keeps (fun (disk : σ) s => Faithful.stored disk = s)
      (Faithful.stored n.disk)) :
    Feeds (all.take kept ++ fresh) n' ∧
      Onset event all (all.take kept ++ fresh) n n' := by
  have hboundary := hadjoins.boundary_le
  have hlast : kept ≤ all.length := h.lastIndex_eq ▸ hadjoins.le_last
  have hlength : (all.take kept).length = kept := List.length_take_of_le hlast
  have htake : ∀ {index}, index ≤ kept →
      (all.take kept ++ fresh).take index = all.take index := by
    intro index hle
    rw [List.take_append_of_le_length (hlength.symm ▸ hle), List.take_take,
      Nat.min_eq_left hle]
  refine ⟨?_, .kept happlied hrecorder (htake hkept)⟩
  constructor
  · constructor
    · have hnumbered := (numbered_iff.mp h.numbered).take kept
      refine numbered_iff.mpr (hnumbered.append ?_)
      rw [hlength, Nat.zero_add]
      exact hadjoins.numbered
    · rw [hlog, Log.snapshotIndex_splice, Log.splice, h.entries,
        List.drop_append_of_le_length (hlength.symm ▸ hboundary), List.drop_take]
    · rw [happlied, List.length_append, hlength]
      exact hkept.trans (Nat.le_add_right _ _)
    · rw [hrecorder, happlied, htake hkept]
      exact h.record
  · exact hlevel
  · have hstored : Faithful.stored n'.disk =
        { Faithful.stored n.disk with entries := n'.log.entries } := hkeeps
    apply h.stored.of_snapshot
    · rw [hstored]
    · rw [hstored]
    · rw [hlog, Log.snapshotIndex_splice]
    · exact htake hboundary

/-- A new entry comes at the end. -/
theorem Feeds.append (h : Feeds all n) (hlevel : n'.Level) {payload : Payload}
    {index : ℕ} {j : Journal σ}
    (hrun : Journal.append n.standing.currentTerm payload n.toJournal = .ok index j)
    (hjournal : n'.toJournal = j) (hstanding : n'.standing = n.standing)
    (hrecorder : n'.recorder = n.recorder) :
    ∃ all', Feeds all' n' ∧ Onset event all all' n n' := by
  subst hjournal
  obtain ⟨hindex, hlog, hkeeps⟩ := (h.keeps.append Storage.retains_stored
    (Entry.fits_of_all (fun _ => trivial) _)).ok hrun
  have hgapless := h.level.gapless
  rw [hgapless.push_eq] at hlog
  exact ⟨_, h.splice hlevel (hgapless.adjoins_single hindex)
    h.level.applied_le_last hlog (by rw [hstanding]) hrecorder hkeeps⟩

/-- A snapshot replaces everything up to its index. -/
theorem Feeds.rebased (h : Feeds all n) {request : InstallRequest} {disk : σ}
    {j : Journal σ} {recorder : Recorder} (hlevel : (n.rebased request j recorder).Level)
    (hnew : n.standing.lastApplied < request.lastIncludedIndex)
    (hgenuine : request.IsGenuine)
    (hsaved : Storage.saveSnapshot request.snapshot n.disk = .ok () disk)
    (hrun : Journal.rebase request.lastIncludedIndex request.lastIncludedTerm
      ⟨n.log, disk⟩ = .ok () j)
    (hrestored : n.recorder.restore request.data = .ok recorder) :
    ∃ all', Feeds all' (n.rebased request j recorder) := by
  obtain ⟨told, htold, hlength, hdata⟩ := hgenuine
  have hlt : n.log.snapshotIndex < request.lastIncludedIndex :=
    h.level.boundary_le.trans_lt hnew
  obtain ⟨hgapless, hindex⟩ := Journal.gapless_rebase (j := ⟨n.log, disk⟩)
    h.level.gapless hlt hrun
  let s : Stored := { Faithful.stored n.disk with snapshot := some request.snapshot }
  have hdisk : Faithful.stored disk = { s with entries := n.log.entries } := by
    rw [(Faithful.saveSnapshot request.snapshot n.disk).ok hsaved, ← h.stored.entries]
  have hkeeps : Journal.Keeps (fun (disk : σ) s => Faithful.stored disk = s) s
      ⟨n.log, disk⟩ := hdisk
  have hstored : Faithful.stored j.disk = { s with entries := j.log.entries } :=
    (hkeeps.rebase Storage.retains_stored h.level.gapless hlt _).ok hrun
  have htake : (told ++ j.log.entries).take request.lastIncludedIndex = told := by
    rw [← hlength, List.take_left]
  rw [hdata] at hrestored
  have hrecorder := Recorder.eq_of_restore hrestored
  refine ⟨told ++ j.log.entries, ?_⟩
  constructor
  · constructor
    · refine numbered_iff.mpr ((numbered_iff.mp htold).append ?_)
      rw [hlength, Nat.zero_add, ← hindex]
      exact hgapless
    · change j.log.entries = (told ++ j.log.entries).drop j.log.snapshotIndex
      rw [hindex, ← hlength, List.drop_left]
    · change request.lastIncludedIndex ≤ _
      rw [List.length_append, hlength]
      exact Nat.le_add_right _ _
    · change recorder.record =
        recordAfter ((told ++ j.log.entries).take request.lastIncludedIndex)
      rw [htake, hrecorder]
  · exact hlevel
  · change (Faithful.stored j.disk).Upholds (told ++ j.log.entries) j.log
    rw [hstored]
    apply Stored.upholds_snapshot rfl rfl hindex.symm
    change request.data =
      (recordAfter ((told ++ j.log.entries).take request.lastIncludedIndex)).encode
    rw [htake, hdata]

/-- Term and vote are stored beside the entries. -/
theorem Stores.entries {hard : HardState} {disk : σ} (h : n.Stores hard disk) :
    (Faithful.stored disk).entries = (Faithful.stored n.disk).entries := by
  cases h with
  | held => rfl
  | written hchanged hrun =>
      rw [(Faithful.saveHardState hard n.disk).ok hrun]

theorem Opens.feeds (h : Opens event n n') (hn : Feeds all n)
    (hharmless : event.IsHarmless n) (hgenuine : event.IsGenuine) :
    ∃ all', Feeds all' n' ∧ Onset event all all' n n' := by
  obtain ⟨hlevel, -⟩ := h.level hn.level hharmless
  have haside : Aside n n' → ∃ all', Feeds all' n' ∧ Onset event all all' n n' := by
    intro haside
    refine ⟨all, hn.aside hlevel haside, .kept ?_ haside.recorder rfl⟩
    rw [haside.standing]
  have hsame : n'.toJournal = n.toJournal →
      n'.standing.lastApplied = n.standing.lastApplied →
      n'.recorder = n.recorder →
      ∃ all', Feeds all' n' ∧ Onset event all all' n n' := by
    intro hjournal happlied hrecorder
    refine ⟨all, ?_, .kept happlied hrecorder rfl⟩
    apply hn.unmoved hlevel (congrArg Journal.log hjournal) happlied hrecorder
    · rw [congrArg Journal.disk hjournal]
    · rw [congrArg Journal.disk hjournal]
  cases h with
  | @turned s disk hturns hstores =>
      have hturned := aside_turned n s disk
      have happlied : (n.turned s disk).standing.lastApplied =
          n.standing.lastApplied := by
        rw [standing_turned, hturns.indices.2]
      refine ⟨all, ?_, .kept happlied hturned.recorder rfl⟩
      apply hn.unmoved hlevel (log_turned n s disk) happlied hturned.recorder
      · rw [disk_turned, hstores.entries]
      · rw [disk_turned, hstores.snapshot]
  | waited => exact haside (aside_emit trivial)
  | counted => exact hsame rfl rfl rfl
  | crowned =>
      have hcrowned := n.aside_crowned
      refine hsame hcrowned.journal ?_ hcrowned.recorder
      rw [standing_crowned]
      rfl
  | noted hevent hrole hrun => exact hn.append hlevel hrun rfl rfl rfl
  | accepted hevent hrole hrun => exact hn.append hlevel hrun rfl rfl rfl
  | proposed hevent hrole hpending hchanges hrun =>
      exact hn.append hlevel hrun rfl rfl rfl
  | merged htakes hrun =>
      obtain ⟨kept, early, fresh, hmeets, hkept⟩ :=
        hn.level.exists_meets htakes hharmless
      have hmerge := hmeets.merge.imp_right fun hcut => And.intro hcut.1 hcut.2.1
      obtain ⟨-, hlog, hkeeps⟩ := (hn.keeps.appendFromLeader Storage.retains_stored
        hn.level.gapless hmeets.adjoins hmerge
        fun entry _ => entry.fits_of_all fun _ => trivial).ok hrun
      exact ⟨_, hn.splice hlevel hmeets.adjoins hkept hlog rfl rfl hkeeps⟩
  | refreshed => exact hsame rfl rfl rfl
  | @rebased request disk j recorder hadmits hsaved hrun hrestored =>
      obtain ⟨ticket, rfl⟩ := hadmits.event
      obtain ⟨all', hfeeds⟩ :=
        hn.rebased hlevel hadmits.new hgenuine hsaved hrun hrestored
      exact ⟨all', hfeeds, .restored rfl hadmits.new rfl hrestored⟩
  | recorded => exact hsame rfl rfl rfl

omit [Faithful σ] in
/-- Taking an event in gives the consumer nothing. -/
theorem Opening.calls (h : Opening event n n') : n'.calls = n.calls := by
  induction h with
  | refl => rfl
  | tail _ hlast ih =>
      obtain ⟨more, heffects, hslight⟩ := hlast.effects
      have hcalls := calls_append heffects
        fun effect heffect => (hslight effect heffect).call?
      exact hcalls.trans ih

theorem Opening.feeds (h : Opening event n n') (hn : Feeds all n)
    (hharmless : event.IsHarmless n) (hgenuine : event.IsGenuine) :
    ∃ all', Feeds all' n' ∧ Onset event all all' n n' := by
  induction h with
  | refl => exact ⟨all, hn, .kept rfl rfl rfl⟩
  | tail hfirst hlast ih =>
      obtain ⟨between, hfeeds, honset⟩ := ih
      have hspared := (Opening.level hfirst hn.level hharmless).2
      obtain ⟨all', hfeeds', honset'⟩ := hlast.feeds hfeeds hspared hgenuine
      exact ⟨all', hfeeds', honset.trans honset'⟩

/-! ## Doing what follows -/

/-- The node went on to give its consumer the commands that come next, each of them
new to it. -/
structure Delivers (all : List Entry) (m n : Node σ) : Prop where
  feeds : Feeds all n
  le : m.standing.lastApplied ≤ n.standing.lastApplied
  calls : n.calls = m.calls ++
    commandsBetween all m.standing.lastApplied n.standing.lastApplied
  recorder : n.recorder = m.recorder.takes
    (commandsBetween all m.standing.lastApplied n.standing.lastApplied)
  fresh : m.recorder.Fresh
    (commandsBetween all m.standing.lastApplied n.standing.lastApplied)

theorem Feeds.delivers (h : Feeds all n) : Delivers all n n where
  feeds := h
  le := le_rfl
  calls := by rw [commandsBetween_self, List.append_nil]
  recorder := by rw [commandsBetween_self, Recorder.takes_nil]
  fresh := by
    rw [commandsBetween_self]
    trivial

/-- Nothing is applied. -/
theorem Delivers.calm (h : Delivers all m n) (hfeeds : Feeds all n')
    (happlied : n'.standing.lastApplied = n.standing.lastApplied)
    (hcalls : n'.calls = n.calls) (hrecorder : n'.recorder = n.recorder) :
    Delivers all m n' := by
  constructor
  · exact hfeeds
  · rw [happlied]
    exact h.le
  · rw [happlied, hcalls]
    exact h.calls
  · rw [happlied, hrecorder]
    exact h.recorder
  · rw [happlied]
    exact h.fresh

/-- The next entry is applied. -/
theorem Delivers.applied (h : Delivers all m n) {entry : Entry}
    (hlevel : (n.applyEntry entry (n.standing.lastApplied + 1)).Level)
    (hentry : n.log.get? (n.standing.lastApplied + 1) = some entry) :
    Delivers all m (n.applyEntry entry (n.standing.lastApplied + 1)) := by
  have hfeeds := h.feeds
  have hnext : all[n.standing.lastApplied]? = some entry := by
    rw [← hentry, Log.get?_of_drop hfeeds.entries
      (Nat.lt_succ_of_le hfeeds.level.boundary_le)]
    rfl
  have hindex : entry.index = n.standing.lastApplied + 1 :=
    hfeeds.numbered _ entry hnext
  have henacted := enacted_applyEntry n entry (n.standing.lastApplied + 1)
  obtain ⟨hcalls, hrecorder⟩ := consumes_applyEntry n hindex
  have hsucc := commandsBetween_succ h.le hnext
  generalize n.applyEntry entry (n.standing.lastApplied + 1) = n' at *
  have happlied : n'.standing.lastApplied = n.standing.lastApplied + 1 := by
    rw [henacted.standing]
  obtain ⟨hrecord, hfresh⟩ :=
    Recorder.record_takes_call? hfeeds.numbered hnext hfeeds.record
  have hlog := congrArg Journal.log henacted.journal
  have hdisk := congrArg Journal.disk henacted.journal
  constructor
  · constructor
    · constructor
      · exact hfeeds.numbered
      · rw [hlog]
        exact hfeeds.entries
      · rw [happlied]
        exact (List.getElem?_eq_some_iff.mp hnext).1
      · rw [happlied, hrecorder]
        exact hrecord
    · exact hlevel
    · rw [hlog, hdisk]
      exact hfeeds.stored
  · rw [happlied]
    exact h.le.trans (Nat.le_succ _)
  · rw [hcalls, h.calls, happlied, hsucc, List.append_assoc]
  · rw [hrecorder, happlied, hsucc, h.recorder]
    unfold Recorder.takes
    rw [List.foldl_append]
  · rw [happlied, hsucc]
    rw [h.recorder] at hfresh
    cases hcall : entry.call? with
    | none =>
        rw [Option.toList_none, List.append_nil]
        exact h.fresh
    | some call =>
        rw [hcall] at hfresh
        exact Recorder.fresh_append_single.mpr ⟨h.fresh, hfresh.1⟩

/-- A snapshot of what is applied takes the place of the entries. -/
theorem Delivers.compacted (h : Delivers all m n) {term : ℕ} {disk : σ} {j : Journal σ}
    (hlevel : Level { n with toJournal := j }) (hlong : n.Overflows term)
    (hsaved : Storage.saveSnapshot (n.ownSnapshot term) n.disk = .ok () disk)
    (hrun : Journal.compactTo n.standing.lastApplied term ⟨n.log, disk⟩ = .ok () j) :
    Delivers all m { n with toJournal := j } := by
  have hfeeds := h.feeds
  let s : Stored := { Faithful.stored n.disk with snapshot := some (n.ownSnapshot term) }
  have hdisk : Faithful.stored disk = { s with entries := n.log.entries } := by
    rw [(Faithful.saveSnapshot _ n.disk).ok hsaved, ← hfeeds.stored.entries]
  have hkeeps : Journal.Keeps (fun (disk : σ) s => Faithful.stored disk = s) s
      ⟨n.log, disk⟩ := hdisk
  obtain ⟨hlog, hkeeps'⟩ := (hkeeps.compactTo Storage.retains_stored
    hfeeds.level.gapless hlong.new term).ok hrun
  have hstored : Faithful.stored j.disk = { s with entries := j.log.entries } := hkeeps'
  refine h.calm ?_ rfl rfl rfl
  constructor
  · constructor
    · exact hfeeds.numbered
    · change j.log.entries = all.drop j.log.snapshotIndex
      rw [hlog]
      change n.log.entries.drop _ = _
      rw [hfeeds.entries, List.drop_drop, Nat.add_sub_cancel' hlong.new.le]
      rfl
    · exact hfeeds.applied_le
    · exact hfeeds.record
  · exact hlevel
  · change (Faithful.stored j.disk).Upholds all j.log
    rw [hstored]
    apply Stored.upholds_snapshot rfl rfl
    · rw [hlog]
      rfl
    · exact congrArg Record.encode hfeeds.record

theorem Closes.delivers (h : Closes event n n') (hn : Delivers all m n) :
    Delivers all m n' := by
  have hlevel := h.level hn.feeds.level
  -- most deeds have no effect but one that the consumer does not notice
  have hemitted : ∀ effects : List Effect, (∀ effect ∈ effects, effect.call? = none) →
      ∀ k : Node σ, k.Level → k.toReplica = n.toReplica → k.recorder = n.recorder →
        k.effects = n.effects ++ effects → Delivers all m k := by
    intro effects hnone k hk hreplica hrecorder heffects
    have hjournal := congrArg Replica.toJournal hreplica
    have hstanding := congrArg Replica.standing hreplica
    refine hn.calm ?_ (congrArg Standing.lastApplied hstanding)
      (calls_append heffects hnone) hrecorder
    apply hn.feeds.unmoved hk (congrArg Journal.log hjournal)
      (congrArg Standing.lastApplied hstanding) hrecorder
    · rw [congrArg Journal.disk hjournal]
    · rw [congrArg Journal.disk hjournal]
  cases h with
  | applied hmore hentry => exact hn.applied hlevel hentry
  | retired =>
      have hturned := aside_turned n n.retiring n.disk
      have happlied : (n.turned n.retiring n.disk).standing.lastApplied =
          n.standing.lastApplied := by
        rw [standing_turned, retiring_eq]
      refine hn.calm ?_ happlied hturned.calls hturned.recorder
      apply hn.feeds.unmoved hlevel (log_turned _ _ _) happlied hturned.recorder
      · rw [disk_turned]
      · rw [disk_turned]
  | announced => exact hemitted [_] (by simp [Effect.call?]) _ hlevel rfl rfl rfl
  | compacted hlong hsaved hrun => exact hn.compacted hlevel hlong hsaved hrun
  | dispatched => exact hemitted [_] (by simp [Effect.call?]) _ hlevel rfl rfl rfl
  | campaigned =>
      refine hemitted _ (fun effect heffect => ?_) _ hlevel rfl rfl rfl
      obtain ⟨peer, -, rfl⟩ := List.mem_map.mp heffect
      rfl
  | answered => exact hemitted [_] (by simp [Effect.call?]) _ hlevel rfl rfl rfl

theorem Settling.delivers (h : Settling event n n') (hn : Feeds all n) :
    Delivers all n n' := by
  obtain ⟨m, hcommitting, hclosing⟩ := h
  have hm : Delivers all n m := by
    cases hcommitting with
    | refl => exact hn.delivers
    | single hcommits =>
        have hlevel := hcommits.level hn.level
        cases hcommits with
        | committed =>
            refine hn.delivers.calm ?_ rfl rfl rfl
            exact hn.unmoved hlevel rfl rfl rfl rfl rfl
  exact keeps_of_reflTransGen hclosing (fun _ _ hcloses => hcloses.delivers) hm

end Node

end Consensus
