import Consensus.Proofs.Node.Heeding

/-!
# One server at a time

A leader that is asked to change the members looks at what it remembers of the
membership only: whether a change is pending, and who the committed members are.
Both are read off its log, whatever it has been through.  So it appends a change
only if every earlier one is applied, and then to the members of the last earlier
one.

An entry may be compacted away within the event that appended it.  What a node
appends is therefore not read off its log but off a disk that registers it.
-/

namespace Consensus

open Storage (Faithful Writes)

/-! ## Entries without a change -/

theorem Membership.lastConfig?_eq_none_iff {entries : List Entry} :
    Membership.lastConfig? entries = none ↔
      ∀ entry ∈ entries, entry.config? = none := by
  unfold Membership.lastConfig?
  rw [List.getLast?_eq_none_iff, List.filterMap_eq_nil_iff]
  exact forall₂_congr fun _ _ => Option.map_eq_none_iff

/-- A change that has an effect concerns one server. -/
theorem NodeSet.existsUnique_of_isUnchangedBy {members : NodeSet}
    {change : ServerChange} (h : members.isUnchangedBy change = false) :
    ∃! server, ¬(server ∈ members.withChange change ↔ server ∈ members) := by
  cases change with
  | add server =>
      have hnew : server ∉ members := by simpa [isUnchangedBy] using h
      refine ⟨server, by simp [withChange, hnew], fun other hother => ?_⟩
      by_contra hne
      exact hother (by simp [withChange, hne])
  | remove server =>
      have hold : server ∈ members := by simpa [isUnchangedBy] using h
      refine ⟨server, by simp [withChange, hold], fun other hother => ?_⟩
      by_contra hne
      exact hother (by simp [withChange, hne])

/-! ## A disk that registers what is added -/

/-- A disk with a register of every entry that was ever added to it. -/
structure Register (σ : Type) where
  disk : σ
  added : List Entry := []
deriving DecidableEq

namespace Register

variable {σ α : Type}

/-- Do something to the disk that adds no entry. -/
def onDisk (act : EStateM Error σ α) : EStateM Error (Register σ) α :=
  onPart Register.disk (fun disk r => { r with disk := disk }) act

theorem added_onDisk (act : EStateM Error σ α) (r : Register σ) :
    Ensures (onDisk act) r (fun _ r' => r'.added = r.added)
      fun r' => r'.added = r.added :=
  Ensures.onPart (Ensures.of_runs (fun _ _ _ => rfl) fun _ _ _ => rfl)

variable [Storage σ]

/-- An entry is registered once the disk has taken it. -/
def append (entries : List Entry) : EStateM Error (Register σ) Unit := do
  onDisk (Storage.append entries)
  modify fun r => { r with added := r.added ++ entries }

instance : Storage (Register σ) where
  loadHardState r := Storage.loadHardState r.disk
  loadEntries r := Storage.loadEntries r.disk
  loadSnapshot r := Storage.loadSnapshot r.disk
  saveHardState hard := onDisk (Storage.saveHardState hard)
  append := append
  truncateFrom index := onDisk (Storage.truncateFrom index)
  compactTo index := onDisk (Storage.compactTo index)
  saveSnapshot snapshot := onDisk (Storage.saveSnapshot snapshot)

theorem added_append (entries : List Entry) (r : Register σ) :
    Ensures (Storage.append entries) r
      (fun _ r' => r'.added = r.added ++ entries)
      fun r' => r'.added = r.added := by
  refine Ensures.bind ((added_onDisk (Storage.append entries) r).imp ?_)
  intro _ r' hr
  rw [Ensures.modify_iff, hr]

variable [Faithful σ]

/-- What the disk stores. -/
def stored (r : Register σ) : Stored := Faithful.stored r.disk

theorem writes_onDisk {act : EStateM Error σ Unit} {change : Stored → Stored}
    (h : Writes Faithful.stored act change) :
    Writes stored (onDisk act) change :=
  fun r => Ensures.onPart (h r.disk)

instance : Faithful (Register σ) where
  stored := stored
  loadHardState r := Faithful.loadHardState r.disk
  loadEntries r := Faithful.loadEntries r.disk
  loadSnapshot r := Faithful.loadSnapshot r.disk
  saveHardState hard := writes_onDisk (Faithful.saveHardState hard)
  append entries r := Ensures.bind
    ((writes_onDisk (Faithful.append entries) r).imp fun _ _ hr => hr)
  truncateFrom index := writes_onDisk (Faithful.truncateFrom index)
  compactTo index := writes_onDisk (Faithful.compactTo index)
  saveSnapshot snapshot := writes_onDisk (Faithful.saveSnapshot snapshot)

end Register

/-! ## What a journal registers -/

namespace Journal

variable {σ : Type} [Storage σ]

theorem added_append (j : Journal (Register σ)) (term : ℕ) (payload : Payload) :
    Ensures (append term payload) j
      (fun _ j' => j'.disk.added =
        j.disk.added ++ [⟨term, j.log.lastIndex + 1, payload⟩])
      fun j' => j'.disk.added = j.disk.added := by
  unfold append
  rw [Ensures.get_bind_iff]
  exact Ensures.bind (Ensures.onPart (Register.added_append _ _))

theorem added_compactTo (j : Journal (Register σ)) (index term : ℕ) :
    Ensures (compactTo index term) j
      (fun _ j' => j'.disk.added = j.disk.added)
      fun j' => j'.disk.added = j.disk.added := by
  unfold compactTo
  rw [Ensures.get_bind_iff]
  refine Ensures.ite (fun _ => rfl) fun _ => ?_
  exact Ensures.bind (Ensures.onPart (Register.added_onDisk _ _))

end Journal

namespace Node

/-! ## Nothing else is added -/

section

variable {σ : Type} [Storage σ] {n n' : Node (Register σ)} {event : Event}
  {disk : Register σ}

theorem Closes.added (h : Closes event n n') :
    n'.disk.added = n.disk.added := by
  rcases h.journal_or_compacts with hsame | ⟨term, disk, -, hsaved, hrun⟩
  · rw [congrArg Journal.disk hsame]
  · exact ((Journal.added_compactTo _ _ _).ok hrun).trans
      ((Register.added_onDisk _ _).ok hsaved)

theorem Settling.added (h : Settling event n n') :
    n'.disk.added = n.disk.added := by
  obtain ⟨m, hcommitting, hclosing⟩ := h
  refine keeps_of_reflTransGen hclosing
    (I := fun k => k.disk.added = n.disk.added)
    (fun _ _ hstep hk => hstep.added.trans hk) ?_
  cases hcommitting with
  | refl => rfl
  | single hstep =>
      cases hstep with
      | committed => rfl

/-- A write that fails adds nothing, and leaders add nothing to a log but at its
end. -/
theorem Breaks.added (h : n.Breaks event disk) (hevent : event.leader? = none) :
    disk.added = n.disk.added := by
  have hadmits : ∀ request, ¬n.Admits event request := by
    rintro request ⟨⟨_, rfl⟩, -⟩
    exact absurd hevent (by simp [Event.leader?])
  cases h with
  | turning _ _ hrun => exact (Register.added_onDisk _ _).error hrun
  | appending _ hrun => exact (Journal.added_append _ _ _).error hrun
  | merging htakes =>
      obtain ⟨_, rfl⟩ := htakes.event
      exact absurd hevent (by simp [Event.leader?])
  | receiving hnew => exact absurd hnew (hadmits _)
  | rebasing hnew => exact absurd hnew (hadmits _)
  | restoring hnew => exact absurd hnew (hadmits _)
  | applying => rfl
  | measuring => rfl
  | saving _ hrun => exact (Register.added_onDisk _ _).error hrun
  | compacting _ hsaved hrun =>
      exact ((Journal.added_compactTo _ _ _).error hrun).trans
        ((Register.added_onDisk _ _).ok hsaved)
  | sending => rfl

/-- A leader that spreads what it appended appends no more. -/
theorem added_spread (hn : n.Saved) (hevent : event.leader? = none) :
    Ensures (advanceCommit >>= fun _ => replicateAll) n
      (fun _ m => m.disk.added = n.disk.added)
      fun m => m.disk.added = n.disk.added := by
  refine Ensures.mono (does_spread hn hevent) (fun _ m hm => hm.1.added) ?_
  rintro m ⟨k, hk, hfails⟩
  exact (hfails.breaks.added hevent).trans hk.added

/-! ## What is asked of the node's memory -/

/-- The node leads, it remembers no change that is pending, and the change makes a
difference to the members that it remembers. -/
structure Proceeds (n : Node (Register σ)) (change : ServerChange) : Prop where
  role : n.standing.role = .leader
  free : n.membership.pending.isSome = false
  changes : n.membership.committed.isUnchangedBy change = false

/-- The entry of the change. -/
def proposal (n : Node (Register σ)) (change : ServerChange) : Entry :=
  ⟨n.standing.currentTerm, n.log.lastIndex + 1,
    .config (n.membership.committed.withChange change)⟩

omit [Storage σ] in
theorem aside_proposing (n : Node (Register σ)) (index ticket : ℕ)
    (members : NodeSet) :
    Aside { n with
        membership := n.membership.onAppend index members
        changeWaiters :=
          n.changeWaiters.insert index ⟨n.standing.currentTerm, ticket⟩ }
      (n.proposing index ticket members) :=
  aside_syncPeers _ _ _

/-- A request for a change appends its entry, if it proceeds, and nothing else.
If the event fails, the entry may be there or not. -/
theorem added_change (hn : n.Saved) (ticket : ℕ) (change : ServerChange) :
    Ensures (handle (.change ticket change)) n
      (fun _ n' =>
        n.Proceeds change ∧
            n'.disk.added = n.disk.added ++ [n.proposal change] ∨
          ¬n.Proceeds change ∧ n'.disk.added = n.disk.added)
      fun n' =>
        n.Proceeds change ∧
            n'.disk.added = n.disk.added ++ [n.proposal change] ∨
          n'.disk.added = n.disk.added := by
  unfold handle handleChange
  rw [Ensures.get_bind_iff]
  refine Ensures.ite (fun hrole => .inr ⟨fun h => hrole h.role, rfl⟩)
    fun hleads => ?_
  have hleads := not_not.mp hleads
  refine Ensures.ite (fun hpending => .inr ⟨fun h => ?_, rfl⟩) fun hfree => ?_
  · exact absurd (h.free.symm.trans hpending) (by simp)
  have hfree := Bool.eq_false_of_not_eq_true hfree
  refine Ensures.ite (fun hsame => .inr ⟨fun h => ?_, rfl⟩) fun hchanges => ?_
  · exact absurd (h.changes.symm.trans hsame) (by simp)
  have hproceeds : n.Proceeds change :=
    ⟨hleads, hfree, Bool.eq_false_of_not_eq_true hchanges⟩
  -- From here on the entry is there, and neither committing nor sending adds more.
  have happends := Journal.added_append n.toJournal n.standing.currentTerm
    (.config (n.membership.committed.withChange change))
  refine Ensures.bind (Ensures.onJournal (fun index j hrun => ?_)
    fun _ j hrun => .inr (happends.error hrun))
  have haside := aside_proposing { n with toJournal := j } index ticket
    (n.membership.committed.withChange change)
  have hadded : ({ n with toJournal := j }.proposing index ticket
      (n.membership.committed.withChange change)).disk.added =
        n.disk.added ++ [n.proposal change] := by
    rw [haside.disk]
    exact happends.ok hrun
  have hevent : (Event.change ticket change).leader? = none := rfl
  rw [Ensures.modify_bind_iff]
  exact (added_spread (haside.saved hn) hevent).mono
    (fun _ m hm => .inl ⟨hproceeds, hm.trans hadded⟩)
    fun m hm => .inl ⟨hproceeds, hm.trans hadded⟩

end

/-! ## What the log says -/

section

variable {σ : Type} [Storage σ] [Faithful σ] {n : Node σ} {settings : Settings}

/-- The members in force at the end of the log: those of the last change in it, or
without one those of the snapshot, or without a snapshot the first ones. -/
def latest (first : NodeSet) (n : Node σ) : NodeSet :=
  membersAfter ((Faithful.stored n.disk).base first) n.log.entries

/-- The node leads, and every change in its log is applied. -/
structure MayChange (n : Node σ) : Prop where
  role : n.standing.role = .leader
  applied : ∀ entry ∈ n.log.entries, n.standing.lastApplied < entry.index →
    entry.config? = none

/-- A node remembers a change exactly while its log has one that is not applied. -/
theorem Dutiful.free_iff (h : n.Dutiful settings) :
    n.membership.pending.isSome = false ↔
      ∀ entry ∈ n.log.entries, n.standing.lastApplied < entry.index →
        entry.config? = none := by
  have hpending : n.membership.pending =
      Membership.lastConfig? (n.log.entriesAfter n.standing.lastApplied) := by
    rw [h.heeds.membership]
    rfl
  rw [hpending, Option.isSome_eq_false_iff, Option.isNone_iff_eq_none,
    Membership.lastConfig?_eq_none_iff]
  constructor
  · intro hall entry hentry hlt
    exact hall entry (List.mem_filter.mpr ⟨hentry, decide_eq_true hlt⟩)
  · intro hall entry hentry
    obtain ⟨hmem, hlt⟩ := List.mem_filter.mp hentry
    exact hall entry hmem (of_decide_eq_true hlt)

/-- Without a change that is not applied, the committed members are the latest. -/
theorem Dutiful.committed_eq_latest (h : n.Dutiful settings)
    (hfree : n.membership.pending.isSome = false) :
    n.membership.committed = n.latest (.ofList settings.members) := by
  have hgapless := h.level.gapless
  have hmembership := h.heeds.membership
  have hnone : Membership.lastConfig?
      (n.log.entriesAfter n.standing.lastApplied) = none := by
    rw [hmembership] at hfree
    exact Option.isNone_iff_eq_none.mp (Option.isSome_eq_false_iff.mp hfree)
  have hsplit : n.log.entries = n.log.entriesUpTo n.standing.lastApplied ++
      n.log.entriesAfter n.standing.lastApplied := by
    rw [hgapless.entriesUpTo_eq, hgapless.entriesAfter_eq,
      List.take_append_drop]
  rw [latest, Membership.membersAfter_eq_lastConfig?, hsplit,
    Membership.lastConfig?_append, hnone, hmembership, ← h.heeds.settings]
  rfl

theorem Dutiful.proceeds_iff {n : Node (Register σ)} (h : n.Dutiful settings)
    (change : ServerChange) :
    n.Proceeds change ↔ n.MayChange ∧
      (n.latest (.ofList settings.members)).isUnchangedBy change = false := by
  constructor
  · intro hproceeds
    have hlatest := h.committed_eq_latest hproceeds.free
    exact ⟨⟨hproceeds.role, h.free_iff.mp hproceeds.free⟩,
      hlatest ▸ hproceeds.changes⟩
  · rintro ⟨hmay, hchanges⟩
    have hfree := h.free_iff.mpr hmay.applied
    exact ⟨hmay.role, hfree, h.committed_eq_latest hfree ▸ hchanges⟩

/-! ## One server at a time -/

/-- The node leads and has applied every change in its log.  It appends one entry,
whose members differ from the latest ones in exactly one server. -/
structure ChangesOne (first : NodeSet) (change : ServerChange)
    (n n' : Node (Register σ)) : Prop where
  may : n.MayChange
  added : n'.disk.added = n.disk.added ++
    [⟨n.standing.currentTerm, n.log.lastIndex + 1,
      .config ((n.latest first).withChange change)⟩]
  one : ∃! server,
    ¬(server ∈ (n.latest first).withChange change ↔ server ∈ n.latest first)

theorem Dutiful.changesOne {n n' : Node (Register σ)} (h : n.Dutiful settings)
    {change : ServerChange} (hproceeds : n.Proceeds change)
    (hadded : n'.disk.added = n.disk.added ++ [n.proposal change]) :
    ChangesOne (.ofList settings.members) change n n' := by
  obtain ⟨hmay, hchanges⟩ := (h.proceeds_iff change).mp hproceeds
  refine ⟨hmay, ?_, NodeSet.existsUnique_of_isUnchangedBy hchanges⟩
  rw [hadded, proposal, h.committed_eq_latest hproceeds.free]

theorem Running.changes_one {n : Node (Register σ)} (h : Running settings n)
    (ticket : ℕ) (change : ServerChange) :
    ChangesOne (.ofList settings.members) change n
        (outcome (handle (.change ticket change)) n).2 ∨
      (outcome (handle (.change ticket change)) n).2.disk.added =
          n.disk.added ∧
        ((outcome (handle (.change ticket change)) n).1 = .ok () →
          n.MayChange →
            (n.latest (.ofList settings.members)).isUnchangedBy change =
              true) := by
  obtain ⟨hdutiful, hsaved⟩ := h.dutiful
  have hadded := added_change hsaved ticket change
  unfold outcome
  cases hrun : handle (.change ticket change) n with
  | ok a n' =>
      rcases hadded.ok hrun with ⟨hproceeds, hn'⟩ | ⟨hnot, hn'⟩
      · exact .inl (hdutiful.changesOne hproceeds hn')
      · refine .inr ⟨hn', fun _ hmay => ?_⟩
        by_contra hchanges
        exact hnot ((hdutiful.proceeds_iff change).mpr
          ⟨hmay, Bool.eq_false_of_not_eq_true hchanges⟩)
  | error e n' =>
      rcases hadded.error hrun with ⟨hproceeds, hn'⟩ | hn'
      · exact .inl (hdutiful.changesOne hproceeds hn')
      · exact .inr ⟨hn', fun hok => absurd hok (by simp)⟩

/-- The only member of a cluster, as it starts.  It keeps no more than one entry if
it need not. -/
def hermit : Node (Register Memory) :=
  fresh { compactionThreshold := 1 } ⟨⟨{}, []⟩, {}⟩

/-- The member is elected. -/
def hermitLeads : Node (Register Memory) :=
  { (outcome (@handle (Register Memory) _ .words .campaign) hermit).2 with effects := [] }

theorem inWords_hermitLeads :
    hermitLeads.InWords hermit.settings Event.IsHarmless := by
  have hstart : @recover (Register Memory) _ .words hermit.settings ⟨⟨{}, []⟩, {}⟩ =
      .ok hermit ⟨⟨{}, []⟩, {}⟩ := rfl
  have hnew : hermit.InWords hermit.settings Event.IsHarmless :=
    .started hstart (by decide)
  exact hnew.handled trivial ⟨fun _ => by decide, below_of_values (by decide), by decide⟩
    (by decide +kernel)

end

end Node

end Consensus
