import Consensus.Proofs.Mirrored
import Consensus.Proofs.Node.Pledging
import Consensus.Proofs.Node.Waiting

/-!
# Nodes that can start again

A node is fit if its log is sound, its disk holds the log, the term and the vote
that it has in memory, and neither the log nor the consumer is beyond what the
node knows of.  A fit node stays fit whatever it does, as long as leaders send
what correct leaders send: entries that follow one another, and snapshots that a
consumer has written.

On the way every entry in the log stays one of those that the log had when the
event came, after an entry or a boundary that it had as well, or is brought by
the event itself.
-/

namespace Consensus

open Storage (Faithful)

/-! ## What correct leaders send -/

/-- The entries follow one another, are of no later term than the request, and
contradict nothing that the node knows to be committed. -/
structure AppendRequest.Suits {σ : Type} (request : AppendRequest)
    (n : Node σ) : Prop where
  numbered : NumberedFrom request.prevIndex request.entries
  rising : Rising request.prevTerm request.entries
  terms : ∀ entry ∈ request.entries, entry.term ≤ request.term
  agrees : ∀ entry ∈ request.entries,
    entry.index ≤ n.standing.commitIndex →
      ∀ term, n.log.termAt? entry.index = some term → term = entry.term

/-- The snapshot was written by a consumer, and is of no later term than the
request. -/
structure InstallRequest.IsSound (request : InstallRequest) : Prop where
  term_le : request.lastIncludedTerm ≤ request.term
  index_lt : request.lastIncludedIndex < wordBound
  written : request.snapshot.Written

/-- What a correct leader may send to the node, or anything that comes from
somebody else. -/
def Event.Suits {σ : Type} (event : Event) (n : Node σ) : Prop :=
  match event with
  | .appendRequest _ request => request.Suits n
  | .installRequest _ request => request.IsSound
  | _ => True

/-- The entries that an event brings: those that a leader sends, the command or
the membership change that is asked for, or the first entry of a leader that the
event makes. -/
def Event.Brings : Event → Entry → Prop
  | .appendRequest _ request, entry => entry ∈ request.entries
  | .command _ payload, entry => entry.payload = .command payload
  | .change _ asked, entry =>
      ∃ members : NodeSet, entry.payload = .config (members.withChange asked)
  | .campaign, entry => entry.payload = .noop
  | .electionTimeout, entry => entry.payload = .noop
  | .voteReply _ _ _, entry => entry.payload = .noop
  | _, _ => False

theorem Event.Elects.brings {event : Event} (h : event.Elects) {entry : Entry}
    (hpayload : entry.payload = .noop) : event.Brings entry := by
  cases event with
  | campaign => exact hpayload
  | electionTimeout => exact hpayload
  | voteReply => exact hpayload
  | _ => exact h.elim

theorem Event.suits_of_leader?_eq_none {σ : Type} {event : Event}
    (h : event.leader? = none) (n : Node σ) : event.Suits n := by
  cases event with
  | appendRequest => exact absurd h (by simp [Event.leader?])
  | installRequest => exact absurd h (by simp [Event.leader?])
  | _ => trivial

namespace Node

variable {σ : Type} [Storage σ] [Faithful σ] {n n' : Node σ} {event : Event}
  {old : Log} {j : Journal σ}

/-! ## Fit nodes -/

/-- The disk holds what the node has in memory, and a node could start on it. -/
structure Fit (n : Node σ) : Prop where
  sound : n.log.Sound
  mirrored : n.toJournal.Mirrored
  boundary : (Faithful.stored n.disk).boundary = n.log.snapshotIndex
  boundaryTerm : (Faithful.stored n.disk).boundaryTerm = n.log.snapshotTerm
  written : ∀ snapshot, (Faithful.stored n.disk).snapshot = some snapshot →
    snapshot.Written
  hard : (Faithful.stored n.disk).hardState = n.standing.hardState
  saved : n.Saved
  within : n.log.Within n.standing.currentTerm
  boundary_le : n.log.snapshotIndex ≤ n.standing.lastApplied
  applied_le : n.standing.lastApplied ≤ n.standing.commitIndex
  applied_le_last : n.standing.lastApplied ≤ n.log.lastIndex
  record : n.recorder.record.Below n.standing.lastApplied

/-- A fit node, compared with the log that it had when the event came. -/
structure Apt (event : Event) (old : Log) (n : Node σ) : Prop where
  fit : n.Fit
  suits : event.Suits n
  descends : ∃ shared, n.log.Descends old event.Brings shared
  ahead : ∀ ticket request, event = .installRequest ticket request →
    n.standing.lastApplied < request.lastIncludedIndex →
      n.log.termAt? request.lastIncludedIndex =
        old.termAt? request.lastIncludedIndex

theorem Fit.apt (h : n.Fit) (hsuits : event.Suits n) : Apt event n.log n where
  fit := h
  suits := hsuits
  descends := ⟨_, h.sound.descends⟩
  ahead _ _ _ _ := rfl

/-- The nodes have the same log, disk and consumer, and differ neither in term and
vote nor in what is committed and applied. -/
structure Alike (n n' : Node σ) : Prop where
  journal : n'.toJournal = n.toJournal
  persisted : n'.persisted = n.persisted
  recorder : n'.recorder = n.recorder
  hardState : n'.standing.hardState = n.standing.hardState
  commitIndex : n'.standing.commitIndex = n.standing.commitIndex
  lastApplied : n'.standing.lastApplied = n.standing.lastApplied

omit [Storage σ] [Faithful σ] in
theorem Aside.alike (h : Aside n n') : Alike n n' :=
  ⟨h.journal, h.persisted, h.recorder, by rw [h.standing], by rw [h.standing],
    by rw [h.standing]⟩

/-- What is applied may change, within what is committed and in the log. -/
theorem Fit.moved (h : n.Fit) (hjournal : n'.toJournal = n.toJournal)
    (hpersisted : n'.persisted = n.persisted)
    (hhard : n'.standing.hardState = n.standing.hardState)
    (hboundary : n.log.snapshotIndex ≤ n'.standing.lastApplied)
    (happlied : n'.standing.lastApplied ≤ n'.standing.commitIndex)
    (hlast : n'.standing.lastApplied ≤ n.log.lastIndex)
    (hrecord : n'.recorder.record.Below n'.standing.lastApplied) : n'.Fit := by
  have hlog : n'.log = n.log := congrArg Journal.log hjournal
  have hdisk : n'.disk = n.disk := congrArg Journal.disk hjournal
  have hterm : n'.standing.currentTerm = n.standing.currentTerm :=
    congrArg HardState.currentTerm hhard
  exact {
    sound := hlog ▸ h.sound
    mirrored := hjournal ▸ h.mirrored
    boundary := by rw [hlog, hdisk, h.boundary]
    boundaryTerm := by rw [hlog, hdisk, h.boundaryTerm]
    written := by rw [hdisk]; exact h.written
    hard := by rw [hdisk, hhard, h.hard]
    saved := hpersisted.trans (h.saved.trans hhard.symm)
    within := by rw [hlog, hterm]; exact h.within
    boundary_le := by rw [hlog]; exact hboundary
    applied_le := happlied
    applied_le_last := by rw [hlog]; exact hlast
    record := hrecord }

theorem Fit.alike (h : n.Fit) (halike : Alike n n') : n'.Fit := by
  have happlied := halike.lastApplied
  refine h.moved halike.journal halike.persisted halike.hardState ?_ ?_ ?_ ?_
  · exact h.boundary_le.trans happlied.ge
  · rw [happlied, halike.commitIndex]
    exact h.applied_le
  · exact happlied.le.trans h.applied_le_last
  · rw [halike.recorder, happlied]
    exact h.record

omit [Storage σ] [Faithful σ] in
/-- An event goes on to suit a node that forgets terms of what is committed. -/
theorem suits_of_termAt? (h : event.Suits n)
    (hlog : ∀ index term, 0 < index → n'.log.termAt? index = some term →
      n.log.termAt? index = some term)
    (hcommit : n'.standing.commitIndex = n.standing.commitIndex) :
    event.Suits n' := by
  cases event with
  | appendRequest ticket request =>
      have hsuits : request.Suits n := h
      refine { hsuits with agrees := fun entry hentry hle term hterm => ?_ }
      have hpos := (hsuits.numbered.index_of_mem hentry).1
      rw [hcommit] at hle
      exact hsuits.agrees entry hentry hle term
        (hlog _ _ (Nat.zero_lt_of_lt hpos) hterm)
  | installRequest => exact h
  | _ => trivial

omit [Storage σ] [Faithful σ] in
theorem suits_of_same (h : event.Suits n) (hlog : n'.log = n.log)
    (hcommit : n'.standing.commitIndex = n.standing.commitIndex) :
    event.Suits n' :=
  suits_of_termAt? h (fun _ _ _ hterm => hlog ▸ hterm) hcommit

theorem Apt.alike (h : Apt event old n) (halike : Alike n n') :
    Apt event old n' := by
  have hlog : n'.log = n.log := congrArg Journal.log halike.journal
  refine ⟨h.fit.alike halike, suits_of_same h.suits hlog halike.commitIndex, ?_,
    ?_⟩
  · rw [hlog]
    exact h.descends
  · rw [hlog, halike.lastApplied]
    exact h.ahead

theorem Apt.aside (h : Apt event old n) (haside : Aside n n') :
    Apt event old n' :=
  h.alike haside.alike

/-! ## Turning -/

theorem Fit.stored_of_stores (h : n.Fit) {hard : HardState} {disk : σ}
    (hstores : n.Stores hard disk) : Faithful.stored disk =
      { Faithful.stored n.disk with hardState := hard } := by
  cases hstores with
  | held hsame =>
      have hhard : (Faithful.stored n.disk).hardState = hard :=
        h.hard.trans (h.saved.symm.trans hsame.symm)
      rw [← hhard]
  | written hchanged hrun => exact (Faithful.saveHardState hard n.disk).ok hrun

theorem Apt.turned (h : Apt event old n) {s : Standing} {disk : σ}
    (hturns : n.Turns event s) (hstores : n.Stores s.hardState disk) :
    Apt event old (n.turned s disk) := by
  obtain ⟨hcommit, happlied⟩ := hturns.indices
  have hdisk := h.fit.stored_of_stores hstores
  have hterm := HardState.currentTerm_le hturns.hardState_le
  have hfit : Fit { n with
      standing := s, disk := disk, persisted := s.hardState } := {
    sound := h.fit.sound
    mirrored := (congrArg Stored.entries hdisk).trans h.fit.mirrored
    boundary := by
      change (Faithful.stored disk).boundary = _
      rw [hdisk]
      exact h.fit.boundary
    boundaryTerm := by
      change (Faithful.stored disk).boundaryTerm = _
      rw [hdisk]
      exact h.fit.boundaryTerm
    written := by
      change ∀ snapshot, (Faithful.stored disk).snapshot = some snapshot → _
      rw [hdisk]
      exact h.fit.written
    hard := congrArg Stored.hardState hdisk
    saved := rfl
    within := h.fit.within.mono hterm
    boundary_le := h.fit.boundary_le.trans happlied.ge
    applied_le := happlied.le.trans (h.fit.applied_le.trans hcommit.ge)
    applied_le_last := happlied.le.trans h.fit.applied_le_last
    record := h.fit.record.mono happlied.ge }
  have hbase : Apt event old { n with
      standing := s, disk := disk, persisted := s.hardState } := {
    fit := hfit
    suits := suits_of_same h.suits rfl hcommit
    descends := h.descends
    ahead := by
      intro ticket request hevent hlt
      exact h.ahead ticket request hevent (happlied.ge.trans_lt hlt) }
  exact hbase.aside (aside_turned n s disk)

/-! ## Adding to the log -/

/-- The journal got entries that the event brings after an index that is not
before what is applied. -/
structure Splices (event : Event) (n : Node σ) (kept : ℕ) (fresh : List Entry)
    (j : Journal σ) : Prop where
  follows : n.log.Follows kept fresh
  applied_le : n.standing.lastApplied ≤ kept
  log : j.log = n.log.splice kept fresh
  mirrored : j.Mirrored
  disk : EntriesOnly n.disk j.disk
  terms : ∀ entry ∈ fresh, entry.term ≤ n.standing.currentTerm
  brought : ∀ entry ∈ fresh, event.Brings entry

theorem Splices.fit {kept : ℕ} {fresh : List Entry}
    (h : Splices event n kept fresh j) (hn : n.Fit) :
    Fit { n with toJournal := j } where
  sound := by
    change j.log.Sound
    rw [h.log]
    exact hn.sound.splice h.follows
  mirrored := h.mirrored
  boundary := by
    change (Faithful.stored j.disk).boundary = j.log.snapshotIndex
    rw [Stored.boundary, h.disk.snapshot, h.log]
    exact hn.boundary
  boundaryTerm := by
    change (Faithful.stored j.disk).boundaryTerm = j.log.snapshotTerm
    rw [Stored.boundaryTerm, h.disk.snapshot, h.log]
    exact hn.boundaryTerm
  written := by
    change ∀ snapshot, (Faithful.stored j.disk).snapshot = some snapshot → _
    rw [h.disk.snapshot]
    exact hn.written
  hard := h.disk.hardState.trans hn.hard
  saved := hn.saved
  within := by
    change j.log.Within _
    rw [h.log]
    exact hn.within.splice h.terms
  boundary_le := by
    change j.log.snapshotIndex ≤ _
    rw [h.log]
    exact hn.boundary_le
  applied_le := hn.applied_le
  applied_le_last := by
    change _ ≤ j.log.lastIndex
    rw [h.log, hn.sound.gapless.lastIndex_splice h.follows.toAdjoins]
    exact h.applied_le.trans (Nat.le_add_right _ _)
  record := hn.record

theorem Splices.descends {kept : ℕ} {fresh : List Entry}
    (h : Splices event n kept fresh j) (hn : Apt event old n) :
    ∃ shared, j.log.Descends old event.Brings shared := by
  obtain ⟨shared, hdescends⟩ := hn.descends
  rw [h.log]
  exact ⟨_, hdescends.splice hn.fit.sound h.follows h.brought⟩

/-- A leader adds an entry of its own. -/
theorem Fit.splices_push (h : n.Fit) {payload : Payload} {index : ℕ}
    (hrun : Journal.append n.standing.currentTerm payload n.toJournal =
      .ok index j)
    (hbrings : ∀ index, event.Brings ⟨n.standing.currentTerm, index, payload⟩) :
    Splices event n n.log.lastIndex [⟨n.standing.currentTerm, index, payload⟩]
      j := by
  obtain ⟨hindex, hlog, hdisk⟩ := (Journal.ensures_append _ _ _).ok hrun
  refine ⟨h.sound.follows_single hindex h.within, h.applied_le_last, ?_,
    h.mirrored.append ?_ hdisk, (Journal.spares_append _ _ _).ok hrun, ?_, ?_⟩
  · rw [hlog, h.sound.gapless.splice_lastIndex]
    rfl
  · rw [hlog]
    rfl
  · intro entry hentry
    rw [List.mem_singleton.mp hentry]
  · intro entry hentry
    rw [List.mem_singleton.mp hentry]
    exact hbrings index

theorem Apt.pushed (h : Apt event old n) {payload : Payload} {index : ℕ}
    (hrun : Journal.append n.standing.currentTerm payload n.toJournal =
      .ok index j)
    (hbrings : ∀ index, event.Brings ⟨n.standing.currentTerm, index, payload⟩)
    (hleader : event.leader? = none) :
    Apt event old { n with toJournal := j } := by
  have hsplices := h.fit.splices_push hrun hbrings
  refine ⟨hsplices.fit h.fit, Event.suits_of_leader?_eq_none hleader _,
    hsplices.descends h, ?_⟩
  rintro ticket request rfl
  exact absurd hleader (by simp [Event.leader?])

/-- Entries that a correct leader sends join the log after what is applied. -/
theorem Apt.exists_joins (h : Apt event old n) {request : AppendRequest}
    (htakes : n.Takes event request) : ∃ kept early fresh,
      n.log.Joins n.standing.commitIndex request.entries kept early fresh := by
  obtain ⟨ticket, rfl⟩ := htakes.event
  have hsuits : request.Suits n := h.suits
  obtain ⟨kept, early, fresh, -, hjoins⟩ := h.fit.sound.exists_joins
    (h.fit.boundary_le.trans h.fit.applied_le) hsuits.numbered hsuits.rising
    htakes.fits hsuits.agrees
  exact ⟨kept, early, fresh, hjoins⟩

omit [Storage σ] [Faithful σ] in
theorem Takes.suits {request : AppendRequest} (htakes : n.Takes event request)
    (h : event.Suits n) : request.Suits n := by
  obtain ⟨ticket, rfl⟩ := htakes.event
  exact h

theorem Apt.splices_merged (h : Apt event old n) {request : AppendRequest}
    (htakes : n.Takes event request) {reach kept : ℕ} {early fresh : List Entry}
    (hjoins : n.log.Joins n.standing.commitIndex request.entries kept early fresh)
    (hrun : Journal.appendFromLeader request.prevIndex request.entries
      n.toJournal = .ok reach j) : Splices event n kept fresh j := by
  have hsuits := htakes.suits h.suits
  obtain ⟨-, hlog, hmirrored⟩ := (Journal.ensures_appendFromLeader h.fit.sound
    h.fit.mirrored hjoins).ok hrun
  have hsent : ∀ entry ∈ fresh, entry ∈ request.entries := by
    intro entry hentry
    rw [hjoins.split]
    exact List.mem_append_right _ hentry
  refine ⟨hjoins.follows, ?_, hlog, hmirrored,
    (Journal.spares_appendFromLeader _ _ _).ok hrun, ?_, ?_⟩
  · rcases hjoins.merge with ⟨-, rfl⟩ | ⟨-, hcommitted, -⟩
    · exact h.fit.applied_le_last
    · exact h.fit.applied_le.trans hcommitted
  · intro entry hentry
    rw [← htakes.term]
    exact hsuits.terms entry (hsent entry hentry)
  · obtain ⟨ticket, rfl⟩ := htakes.event
    exact hsent

/-- Once the entries are taken in, they contradict nothing, however much of them
is committed. -/
theorem Fit.suits_merged (hn : n.Fit) {request : AppendRequest}
    (h : request.Suits n) {kept : ℕ} {early fresh : List Entry}
    (hjoins : n.log.Joins n.standing.commitIndex request.entries kept early fresh)
    {m : Node σ} (hlog : m.log = n.log.splice kept fresh) : request.Suits m := by
  have hsound := hn.sound.splice hjoins.follows
  refine { h with agrees := fun entry hentry _ term hterm => ?_ }
  rw [hlog] at hterm
  have hlast := hjoins.follows.le_last
  rcases List.mem_append.mp (hjoins.split ▸ hentry) with hearly | hfresh
  · rcases lt_or_ge n.log.snapshotIndex entry.index with hlt | hle
    · obtain ⟨hkept, hheld⟩ := hjoins.held entry hearly hlt
      rw [hn.sound.gapless.termAt?_splice hlast hkept, hheld] at hterm
      exact (Option.some.inj hterm).symm
    · have hkept := hle.trans hjoins.follows.boundary_le
      rw [hn.sound.gapless.termAt?_splice hlast hkept] at hterm
      exact h.agrees entry hentry
        (hle.trans (hn.boundary_le.trans hn.applied_le)) term hterm
  · have hin : entry ∈ (n.log.splice kept fresh).entries :=
      List.mem_append_right _ hfresh
    rw [hsound.termAt?_of_mem hin] at hterm
    exact (Option.some.inj hterm).symm

theorem Apt.merged (h : Apt event old n) {request : AppendRequest}
    (htakes : n.Takes event request) {reach : ℕ}
    (hrun : Journal.appendFromLeader request.prevIndex request.entries
      n.toJournal = .ok reach j) :
    Apt event old ({ n with
      toJournal := j
      standing := Replica.followCommit n.standing request.leaderCommit
        reach } : Node σ).refreshed := by
  obtain ⟨kept, early, fresh, hjoins⟩ := h.exists_joins htakes
  have hsplices := h.splices_merged htakes hjoins hrun
  have hfit := hsplices.fit h.fit
  refine ⟨?_, ?_, hsplices.descends h, ?_⟩
  · exact hfit.moved rfl rfl rfl hfit.boundary_le
      (hfit.applied_le.trans (Nat.le_max_left _ _)) hfit.applied_le_last
      hfit.record
  · have hsuits := htakes.suits h.suits
    obtain ⟨ticket, rfl⟩ := htakes.event
    exact h.fit.suits_merged hsuits hjoins hsplices.log
  · obtain ⟨ticket, rfl⟩ := htakes.event
    exact fun _ _ hevent => absurd hevent (by simp)

/-! ## A new boundary -/

/-- The journal starts after the snapshot now, which is on the disk. -/
structure Bases (n : Node σ) (snapshot : Snapshot) (j : Journal σ) : Prop where
  log : n.log.Rebased snapshot.index snapshot.term j.log
  mirrored : j.Mirrored
  snapshot : (Faithful.stored j.disk).snapshot = some snapshot
  hardState : (Faithful.stored j.disk).hardState =
    (Faithful.stored n.disk).hardState

theorem Fit.based (h : n.Fit) {snapshot : Snapshot} (hbases : n.Bases snapshot j)
    (hwritten : snapshot.Written)
    (hterm : snapshot.term ≤ n.standing.currentTerm) {m : Node σ}
    (hj : m.toJournal = j) (hhard : m.standing.hardState = n.standing.hardState)
    (hpersisted : m.persisted = n.persisted)
    (happlied : m.standing.lastApplied = snapshot.index)
    (hcommit : snapshot.index ≤ m.standing.commitIndex)
    (hrecord : m.recorder.record.Below snapshot.index) : m.Fit := by
  subst hj
  have hcurrent : m.standing.currentTerm = n.standing.currentTerm :=
    congrArg HardState.currentTerm hhard
  exact {
    sound := hbases.log.sound
    mirrored := hbases.mirrored
    boundary := (Stored.boundary_of_snapshot hbases.snapshot).1.trans
      hbases.log.index_eq.symm
    boundaryTerm := (Stored.boundary_of_snapshot hbases.snapshot).2.trans
      hbases.log.term_eq.symm
    written := by
      intro found hfound
      rw [hbases.snapshot] at hfound
      exact Option.some.inj hfound ▸ hwritten
    hard := hbases.hardState.trans (h.hard.trans hhard.symm)
    saved := hpersisted.trans (h.saved.trans hhard.symm)
    within := by
      rw [hcurrent]
      exact hbases.log.within h.within hterm
    boundary_le := by rw [hbases.log.index_eq, happlied]
    applied_le := by rw [happlied]; exact hcommit
    applied_le_last := by rw [happlied]; exact hbases.log.le_lastIndex
    record := by rw [happlied]; exact hrecord }

/-- The log gets the base of a snapshot that was just stored. -/
theorem Fit.bases_rebase (h : n.Fit) {snapshot : Snapshot} {disk : σ}
    (hlt : n.log.snapshotIndex < snapshot.index)
    (hsaved : Storage.saveSnapshot snapshot n.disk = .ok () disk)
    (hrun : Journal.rebase snapshot.index snapshot.term ⟨n.log, disk⟩ =
      .ok () j) : n.Bases snapshot j := by
  have hdisk := (Faithful.saveSnapshot snapshot n.disk).ok hsaved
  have hmirrored : Journal.Mirrored ⟨n.log, disk⟩ :=
    (congrArg Stored.entries hdisk).trans h.mirrored
  obtain ⟨hlog, hmirrored'⟩ := (Journal.ensures_rebase (j := ⟨n.log, disk⟩)
    h.sound hmirrored hlt snapshot.term).ok hrun
  have hsame := (Journal.spares_rebase _ _ ⟨n.log, disk⟩).ok hrun
  refine ⟨hlog, hmirrored', ?_, ?_⟩
  · rw [hsame.snapshot, hdisk]
  · rw [hsame.hardState, hdisk]

/-- The log drops what a snapshot covers that was just stored. -/
theorem Fit.bases_compact (h : n.Fit) {snapshot : Snapshot} {disk : σ}
    (hlt : n.log.snapshotIndex < snapshot.index)
    (hterm : n.log.termAt? snapshot.index = some snapshot.term)
    (hsaved : Storage.saveSnapshot snapshot n.disk = .ok () disk)
    (hrun : Journal.compactTo snapshot.index snapshot.term ⟨n.log, disk⟩ =
      .ok () j) : n.Bases snapshot j := by
  refine h.bases_rebase hlt hsaved ?_
  rw [Journal.rebase_apply]
  exact (if_pos hterm).trans hrun

omit [Storage σ] [Faithful σ] in
theorem Admits.isSound {request : InstallRequest}
    (hadmits : n.Admits event request) (h : event.Suits n) :
    request.IsSound := by
  obtain ⟨ticket, rfl⟩ := hadmits.event
  exact h

theorem Apt.rebased (h : Apt event old n) (hold : old.Sound)
    {request : InstallRequest} {disk : σ} {recorder : Recorder}
    (hadmits : n.Admits event request)
    (hsaved : Storage.saveSnapshot request.snapshot n.disk = .ok () disk)
    (hrun : Journal.rebase request.lastIncludedIndex request.lastIncludedTerm
      ⟨n.log, disk⟩ = .ok () j)
    (hrestored : n.recorder.restore request.data = .ok recorder) :
    Apt event old (n.rebased request j recorder) := by
  have hrequest := hadmits.isSound h.suits
  have hbases : n.Bases request.snapshot j :=
    h.fit.bases_rebase (h.fit.boundary_le.trans_lt hadmits.new) hsaved hrun
  obtain ⟨shared, hdescends⟩ := h.descends
  refine ⟨h.fit.based hbases hrequest.written ?_ rfl rfl rfl rfl ?_ ?_, ?_,
    hbases.log.descends hold hdescends, ?_⟩
  · exact hrequest.term_le.trans hadmits.term.le
  · exact Nat.le_max_right _ _
  · exact hrequest.written.below_restore hrestored
  · obtain ⟨ticket, rfl⟩ := hadmits.event
    exact hrequest
  · obtain ⟨ticket, rfl⟩ := hadmits.event
    intro _ found hevent hlt
    obtain ⟨-, rfl⟩ := Event.installRequest.inj hevent
    exact absurd hlt (lt_irrefl _)

theorem Apt.compacted (h : Apt event old n) (hold : old.Sound) {term : ℕ}
    {disk : σ} (hlong : n.Overflows term)
    (hsaved : Storage.saveSnapshot (n.ownSnapshot term) n.disk = .ok () disk)
    (hrun : Journal.compactTo n.standing.lastApplied term ⟨n.log, disk⟩ =
      .ok () j) : Apt event old { n with toJournal := j } := by
  have hbases : n.Bases (n.ownSnapshot term) j :=
    h.fit.bases_compact hlong.new hlong.term hsaved hrun
  have hwritten : (n.ownSnapshot term).Written :=
    ⟨n.recorder.record, h.fit.record, rfl⟩
  obtain ⟨shared, hdescends⟩ := h.descends
  have hlog := (Journal.ensures_compactTo ⟨n.log, disk⟩ hlong.new term).ok hrun
  have hterm : ∀ index, n.standing.lastApplied ≤ index →
      j.log.termAt? index = n.log.termAt? index := by
    intro index hle
    rw [hlog.1]
    exact Log.termAt?_dropThrough hlong.new hlong.term hle
  refine ⟨h.fit.based hbases hwritten ?_ rfl rfl rfl rfl h.fit.applied_le
    h.fit.record, ?_, hbases.log.descends hold hdescends, ?_⟩
  · exact h.fit.sound.termAt?_le h.fit.within hlong.term
  · refine suits_of_termAt? h.suits (fun index found hpos hfound => ?_) rfl
    rw [← hterm index ?_]
    · exact hfound
    · by_contra hlt
      have hnone : j.log.termAt? index = none := by
        refine Log.termAt?_of_covered hpos ?_
        rw [hbases.log.index_eq]
        exact not_le.mp hlt
      exact absurd (hnone.symm.trans hfound) (by simp)
  · intro ticket request hevent hlt
    exact (hterm _ hlt.le).trans (h.ahead ticket request hevent hlt)

/-! ## Applying -/

omit [Storage σ] [Faithful σ] in
theorem recorder_applyEntry (n : Node σ) (entry : Entry) (index : ℕ) :
    (n.applyEntry entry index).recorder = n.recorder ∨
      ∃ bytes, (n.applyEntry entry index).recorder =
        n.recorder.apply index bytes := by
  let enacted := (n.enact entry index).mapStanding fun s =>
    { s with lastApplied := index }
  have hcommand : (enacted.answerCommand index entry.term).recorder =
      enacted.recorder := by
    unfold answerCommand
    split <;> rfl
  have hchange := (aside_answerChange
    (enacted.answerCommand index entry.term) index entry.term).recorder
  rw [applyEntry, answerWaiters_eq, hchange, hcommand]
  change (n.enact entry index).recorder = _ ∨
    ∃ bytes, (n.enact entry index).recorder = _
  unfold enact
  split
  · exact Or.inl rfl
  · next bytes hpayload => exact Or.inr ⟨bytes, rfl⟩
  · unfold adoptMembers
    dsimp only
    split <;> exact Or.inl rfl

theorem Apt.applied (h : Apt event old n) {entry : Entry}
    (hmore : n.standing.lastApplied < n.standing.commitIndex)
    (hentry : n.log.get? (n.standing.lastApplied + 1) = some entry) :
    Apt event old (n.applyEntry entry (n.standing.lastApplied + 1)) := by
  have hlt := Nat.lt_succ_of_le h.fit.boundary_le
  have hterm : n.log.termAt? (n.standing.lastApplied + 1) =
      some entry.term := by
    rw [Log.get?, if_neg hlt.not_ge] at hentry
    rw [Log.termAt?_of_lt hlt, hentry]
    rfl
  have henacted := enacted_applyEntry n entry (n.standing.lastApplied + 1)
  have hrecorder := recorder_applyEntry n entry (n.standing.lastApplied + 1)
  generalize n.applyEntry entry (n.standing.lastApplied + 1) = m at *
  have hrecord : m.recorder.record.Below (n.standing.lastApplied + 1) := by
    rcases hrecorder with hsame | ⟨bytes, happly⟩
    · rw [hsame]
      exact h.fit.record.mono (Nat.le_succ _)
    · rw [happly]
      exact Recorder.below_apply h.fit.record bytes
  have hmoved : Apt event old { n with
      standing := { n.standing with
        lastApplied := n.standing.lastApplied + 1 }
      recorder := m.recorder } := {
    fit := h.fit.moved rfl rfl rfl (h.fit.boundary_le.trans (Nat.le_succ _))
      hmore (h.fit.sound.le_lastIndex_of_termAt? hlt hterm) hrecord
    suits := suits_of_same h.suits rfl rfl
    descends := h.descends
    ahead := fun ticket request hevent hnew =>
      h.ahead ticket request hevent (Nat.lt_of_succ_lt hnew) }
  refine hmoved.alike ⟨henacted.journal, henacted.persisted, rfl, ?_, ?_, ?_⟩
  all_goals rw [henacted.standing]

/-! ## Deeds -/

theorem Opens.apt (hopens : Opens event n n') (hold : old.Sound)
    (h : Apt event old n) : Apt event old n' := by
  cases hopens with
  | turned hturns hstores => exact h.turned hturns hstores
  | waited => exact h.aside (aside_emit trivial)
  | counted => exact h.alike ⟨rfl, rfl, rfl, rfl, rfl, rfl⟩
  | crowned =>
      have hleads : Apt event old (n.mapStanding (·.becomeLeader n.self)) :=
        h.alike ⟨rfl, rfl, rfl, rfl, rfl, rfl⟩
      exact hleads.aside n.aside_crowned
  | noted hevent hrole hrun =>
      exact h.pushed hrun (fun _ => hevent.brings rfl) hevent.leader?
  | accepted hevent hrole hrun =>
      subst hevent
      exact (h.pushed hrun (fun _ => rfl) rfl).alike
        ⟨rfl, rfl, rfl, rfl, rfl, rfl⟩
  | proposed hevent hrole hpending hchanges hrun =>
      subst hevent
      have hpushed := h.pushed hrun (fun _ => ⟨_, rfl⟩) rfl
      exact hpushed.alike ⟨rfl, rfl, rfl, rfl, rfl, rfl⟩
  | merged htakes hrun => exact h.merged htakes hrun
  | refreshed => exact h.alike ⟨rfl, rfl, rfl, rfl, rfl, rfl⟩
  | rebased hadmits hsaved hrun hrestored =>
      exact h.rebased hold hadmits hsaved hrun hrestored
  | recorded => exact h.alike ⟨rfl, rfl, rfl, rfl, rfl, rfl⟩

theorem Commits.apt (hcommits : Commits event n n') (h : Apt event old n) :
    Apt event old n' := by
  cases hcommits with
  | committed hevent hrole hmore hterm =>
      refine ⟨?_, Event.suits_of_leader?_eq_none hevent _, h.descends, h.ahead⟩
      exact h.fit.moved rfl rfl rfl h.fit.boundary_le
        (h.fit.applied_le.trans hmore.le) h.fit.applied_le_last h.fit.record

theorem Closes.apt (hcloses : Closes event n n') (hold : old.Sound)
    (h : Apt event old n) : Apt event old n' := by
  cases hcloses with
  | applied hmore hentry => exact h.applied hmore hentry
  | retired hrole hself =>
      have hretired : Alike n { n with
          standing := n.retiring
          persisted := n.retiring.hardState } := by
        rw [retiring_eq]
        exact ⟨rfl, h.fit.saved.symm, rfl, rfl, rfl, rfl⟩
      exact (h.alike hretired).aside (aside_turned n n.retiring n.disk)
  | announced => exact h.alike ⟨rfl, rfl, rfl, rfl, rfl, rfl⟩
  | compacted hlong hsaved hrun => exact h.compacted hold hlong hsaved hrun
  | dispatched => exact h.alike ⟨rfl, rfl, rfl, rfl, rfl, rfl⟩
  | campaigned => exact h.alike ⟨rfl, rfl, rfl, rfl, rfl, rfl⟩
  | answered => exact h.alike ⟨rfl, rfl, rfl, rfl, rfl, rfl⟩

/-- A fit node stays fit through every event. -/
theorem Course.apt (hcourse : Course event n n') (hold : old.Sound)
    (h : Apt event old n) : Apt event old n' :=
  hcourse.keeps (fun _ _ hopens => hopens.apt hold)
    (fun _ _ hcommits => hcommits.apt) (fun _ _ hcloses => hcloses.apt hold) h

end Node

end Consensus
