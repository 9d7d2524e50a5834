import Consensus.Proofs.Membership
import Consensus.Proofs.Node.InWords
import Consensus.Proofs.Node.Level

/-!
# The membership of a node is the one its log dictates

A node changes its membership step by step: when a change is appended, taken over
from a leader or cut off, when it is applied, and when a snapshot comes in.  On any
disk that gives back what was written, the outcome is always what one would read
off the log, the stored snapshot and the settings.
-/

namespace Consensus

open Storage (Faithful)

namespace Node

/-! ## Applying an entry -/

section

variable {σ : Type} (n : Node σ) (entry : Entry) (index : ℕ)

theorem membership_enact : (n.enact entry index).membership =
    match entry.config? with
    | some members => n.membership.onCommit index members
    | none => n.membership := by
  unfold enact Entry.config?
  cases entry.payload with
  | noop => rfl
  | command command => rfl
  | config members =>
      unfold adoptMembers
      dsimp only
      split
      · exact (aside_syncPeers _ _ _).membership
      · rfl

theorem membership_answerCommand (term : ℕ) :
    (n.answerCommand index term).membership = n.membership := by
  unfold answerCommand
  split
  · rfl
  · rfl

/-- A change that is applied takes over. -/
theorem membership_applyEntry : (n.applyEntry entry index).membership =
    match entry.config? with
    | some members => n.membership.onCommit index members
    | none => n.membership := by
  unfold applyEntry
  rw [answerWaiters_eq, (aside_answerChange _ _ _).membership,
    membership_answerCommand]
  exact membership_enact n entry index

end

variable {σ : Type} [Storage σ] [Faithful σ] {n n' : Node σ} {event : Event}
  {settings : Settings}

/-! ## Heeding the log -/

/-- The membership that a node reads off its log, its snapshot and its
settings. -/
def dictated (n : Node σ) : Membership :=
  .dictated ((Faithful.stored n.disk).base (.ofList n.settings.members)) n.log
    n.standing.lastApplied

theorem dictated_congr (hsettings : n'.settings = n.settings)
    (hsnapshot : (Faithful.stored n'.disk).snapshot =
      (Faithful.stored n.disk).snapshot) (hlog : n'.log = n.log)
    (happlied : n'.standing.lastApplied = n.standing.lastApplied) :
    n'.dictated = n.dictated := by
  unfold dictated
  rw [Stored.base_congr hsnapshot, hsettings, hlog, happlied]

/-- The node has the settings, and the membership that its log dictates. -/
structure Heeds (settings : Settings) (n : Node σ) : Prop where
  settings : n.settings = settings
  membership : n.membership = n.dictated

theorem Heeds.of_same (h : n.Heeds settings)
    (hsettings : n'.settings = n.settings)
    (hmembership : n'.membership = n.membership)
    (hsnapshot : (Faithful.stored n'.disk).snapshot =
      (Faithful.stored n.disk).snapshot) (hlog : n'.log = n.log)
    (happlied : n'.standing.lastApplied = n.standing.lastApplied) :
    n'.Heeds settings := by
  constructor
  · exact hsettings.trans h.settings
  · rw [hmembership, h.membership]
    exact (dictated_congr hsettings hsnapshot hlog happlied).symm

/-- Reading the pending change off the log again changes nothing. -/
theorem Heeds.refreshed_eq (h : n.Heeds settings) : refreshed n = n := by
  have hpending : n.membership.refreshPending
      (n.log.entriesAfter n.standing.lastApplied) = n.membership := by
    rw [h.membership]
    rfl
  unfold refreshed
  rw [hpending]

theorem Heeds.aside (h : n.Heeds settings) (haside : Aside n n') :
    n'.Heeds settings := by
  apply h.of_same haside.settings haside.membership
  · rw [haside.disk]
  · exact haside.log
  · rw [haside.standing]

/-- Term and vote are stored beside the snapshot. -/
theorem Stores.snapshot {hard : HardState} {disk : σ}
    (h : n.Stores hard disk) : (Faithful.stored disk).snapshot =
      (Faithful.stored n.disk).snapshot := by
  cases h with
  | held => rfl
  | written hchanged hrun =>
      rw [(Faithful.saveHardState hard n.disk).ok hrun]

/-! ## Deeds -/

theorem Heeds.turned (h : n.Heeds settings) {s : Standing} {disk : σ}
    (hsnapshot : (Faithful.stored disk).snapshot =
      (Faithful.stored n.disk).snapshot)
    (happlied : s.lastApplied = n.standing.lastApplied) :
    (n.turned s disk).Heeds settings := by
  have hstands : Heeds settings
      { n with standing := s, disk := disk, persisted := s.hardState } :=
    h.of_same rfl rfl hsnapshot rfl happlied
  exact hstands.aside (aside_turned n s disk)

/-- An entry that was appended is pending if it is a change. -/
theorem Heeds.appended (h : n.Heeds settings) (hlevel : n.Level)
    {payload : Payload} {index : ℕ} {j : Journal σ}
    (hrun : Journal.append n.standing.currentTerm payload n.toJournal =
      .ok index j) (hsettings : n'.settings = n.settings)
    (hjournal : n'.toJournal = j) (hstanding : n'.standing = n.standing)
    (hmembership : n'.membership = match payload with
      | .config members => n.membership.onAppend index members
      | _ => n.membership) : n'.Heeds settings := by
  obtain ⟨hindex, hlog⟩ := Journal.log_append hrun
  have hspared := (Journal.spares_append _ _ n.toJournal).ok hrun
  subst hjournal
  constructor
  · exact hsettings.trans h.settings
  · unfold dictated
    rw [Stored.base_congr hspared.snapshot, hsettings, hlog, hstanding,
      Membership.dictated_push hlevel.gapless hlevel.applied_le_last hindex,
      hmembership, h.membership]
    cases payload with
    | config members => rfl
    | _ => rfl

theorem Opens.heeds (h : Opens event n n') (hn : n.Heeds settings)
    (hlevel : n.Level) (hevent : event.IsHarmless n) : n'.Heeds settings := by
  cases h with
  | turned hturns hstores =>
      exact hn.turned hstores.snapshot hturns.indices.2
  | waited => exact hn.aside (aside_emit trivial)
  | counted => exact hn.of_same rfl rfl rfl rfl rfl
  | crowned =>
      have hleads : (n.mapStanding (·.becomeLeader n.self)).Heeds settings :=
        hn.of_same rfl rfl rfl rfl rfl
      exact hleads.aside n.aside_crowned
  | noted helects hrole hrun => exact hn.appended hlevel hrun rfl rfl rfl rfl
  | accepted haccepted hrole hrun =>
      exact hn.appended hlevel hrun rfl rfl rfl rfl
  | @proposed ticket index change j hproposed hrole hpending hchanges hrun =>
      have hproposing : Heeds settings { n with
          toJournal := j
          membership := n.membership.onAppend index
            (n.membership.committed.withChange change)
          changeWaiters :=
            n.changeWaiters.insert index ⟨n.standing.currentTerm, ticket⟩ } :=
        hn.appended hlevel hrun rfl rfl rfl rfl
      exact hproposing.aside (aside_syncPeers _ _ _)
  | @merged request reach j htakes hrun =>
      obtain ⟨kept, early, fresh, hmeets, hkept⟩ :=
        hlevel.exists_meets htakes hevent
      obtain ⟨-, hlog⟩ := Journal.log_appendFromLeader hlevel.gapless hmeets hrun
      have hspared := (Journal.spares_appendFromLeader _ _ n.toJournal).ok hrun
      constructor
      · exact hn.settings
      · change n.membership.refreshPending _ = Membership.dictated
          ((Faithful.stored j.disk).base _) j.log n.standing.lastApplied
        rw [Stored.base_congr hspared.snapshot, hlog,
          Membership.dictated_splice hlevel.gapless hmeets.adjoins hkept,
          hn.membership]
        rfl
  | refreshed =>
      constructor
      · exact hn.settings
      · change n.membership.refreshPending _ = n.dictated
        rw [hn.membership]
        rfl
  | @rebased request disk j recorder hadmits hsaved hrun hrestored =>
      obtain ⟨hgapless, hboundary⟩ := Journal.gapless_rebase
        (j := ⟨n.log, disk⟩) hlevel.gapless
        (hlevel.boundary_le.trans_lt hadmits.new) hrun
      have hsnapshot : (Faithful.stored j.disk).snapshot =
          some request.snapshot := by
        rw [((Journal.spares_rebase _ _ ⟨n.log, disk⟩).ok hrun).snapshot,
          (Faithful.saveSnapshot request.snapshot n.disk).ok hsaved]
      constructor
      · exact hn.settings
      · change (Membership.settled request.members).refreshPending _ =
          Membership.dictated ((Faithful.stored j.disk).base _) j.log
            request.lastIncludedIndex
        rw [Stored.base_of_snapshot hsnapshot, ← hboundary,
          Membership.dictated_boundary hgapless]
        rfl
  | recorded => exact hn.of_same rfl rfl rfl rfl rfl

theorem Commits.heeds (h : Commits event n n') (hn : n.Heeds settings) :
    n'.Heeds settings := by
  cases h with
  | committed => exact hn.of_same rfl rfl rfl rfl rfl

theorem Closes.heeds (h : Closes event n n') (hn : n.Heeds settings)
    (hlevel : n.Level) : n'.Heeds settings := by
  cases h with
  | @applied entry hmore hentry =>
      have henacted := enacted_applyEntry n entry (n.standing.lastApplied + 1)
      have hindex := (hlevel.gapless.range_of_get? hentry).2.2
      constructor
      · exact henacted.settings.trans hn.settings
      · unfold dictated
        rw [henacted.settings, henacted.journal, henacted.standing,
          Membership.dictated_succ hlevel.gapless hlevel.boundary_le hentry,
          membership_applyEntry, hn.membership, hindex]
        rfl
  | retired =>
      apply hn.turned rfl
      rw [retiring_eq]
  | announced => exact hn.of_same rfl rfl rfl rfl rfl
  | @compacted term disk j hlong hsaved hrun =>
      have hlog : j.log = n.log.dropThrough n.standing.lastApplied term :=
        Journal.log_compactTo (j := ⟨n.log, disk⟩) hlong.new hrun
      have hsnapshot : (Faithful.stored j.disk).snapshot =
          some (n.ownSnapshot term) := by
        rw [((Journal.spares_compactTo _ _ ⟨n.log, disk⟩).ok hrun).snapshot,
          (Faithful.saveSnapshot (n.ownSnapshot term) n.disk).ok hsaved]
      constructor
      · exact hn.settings
      · change n.membership = Membership.dictated
          ((Faithful.stored j.disk).base _) j.log n.standing.lastApplied
        rw [Stored.base_of_snapshot hsnapshot, hlog]
        change n.membership = Membership.dictated n.membership.committed _ _
        rw [hn.membership]
        exact (Membership.dictated_dropThrough hlevel.gapless hlevel.boundary_le
          term).symm
  | dispatched => exact hn.of_same rfl rfl rfl rfl rfl
  | campaigned => exact hn.of_same rfl rfl rfl rfl rfl
  | answered => exact hn.of_same rfl rfl rfl rfl rfl

/-! ## Whole runs -/

/-- A node whose membership is read off its log. -/
structure Dutiful (settings : Settings) (n : Node σ) : Prop where
  level : n.Level
  heeds : n.Heeds settings

theorem Opening.dutiful (h : Opening event n n') (hn : n.Dutiful settings)
    (hevent : event.IsHarmless n) :
    n'.Dutiful settings ∧ event.IsHarmless n' := by
  apply keeps_of_reflTransGen h
    (I := fun m => m.Dutiful settings ∧ event.IsHarmless m)
  · intro a b hstep ⟨ha, hharmless⟩
    obtain ⟨hlevel, hspared⟩ := hstep.level ha.level hharmless
    exact ⟨⟨hlevel, hstep.heeds ha.heeds ha.level hharmless⟩, hspared⟩
  · exact ⟨hn, hevent⟩

theorem Settling.dutiful (h : Settling event n n') (hn : n.Dutiful settings) :
    n'.Dutiful settings := by
  obtain ⟨m, hcommitting, hclosing⟩ := h
  apply keeps_of_reflTransGen hclosing (I := Dutiful settings)
  · intro a b hstep ha
    exact ⟨hstep.level ha.level, hstep.heeds ha.heeds ha.level⟩
  · cases hcommitting with
    | refl => exact hn
    | single hstep => exact ⟨hstep.level hn.level, hstep.heeds hn.heeds⟩

/-- No event changes what the membership is read off. -/
theorem Course.dutiful (h : Course event n n') (hn : n.Dutiful settings)
    (hevent : event.IsHarmless n) : n'.Dutiful settings := by
  obtain ⟨m, hopening, hsettling⟩ := h
  exact hsettling.dutiful (hopening.dutiful hn hevent).1

theorem Resumes.heeds {d : Durable σ} (h : Resumes settings d n)
    (hgapless : n.log.Gapless) : n.Heeds settings := by
  constructor
  · exact h.settings
  · unfold dictated
    rw [h.membership, Membership.recover_eq_dictated hgapless, h.disk]
    rfl

theorem Dutiful.own (h : n.Dutiful settings) : n.Dutiful n.settings :=
  ⟨h.level, rfl, h.heeds.membership⟩

theorem Dutiful.drained (h : n.Dutiful settings) :
    Dutiful settings { n with effects := [] } where
  level := h.level.of_same rfl rfl rfl
  heeds := h.heeds.of_same rfl rfl rfl rfl rfl

theorem dutiful_of_recover {d d' : Durable σ}
    (hrun : recover settings d = .ok n d') : n.Dutiful settings := by
  have hnew := (ensures_recover_isNew settings d).ok hrun
  have hresumes := (ensures_recover settings d).ok hrun
  exact ⟨hnew.level, hresumes.heeds hnew.level.gapless⟩

/-- The node was started with the settings, over any disk, and has handled
harmless events since, all without an error. -/
inductive Running [Counting] (settings : Settings) : Node σ → Prop
  | started {d d' : Durable σ} {n : Node σ}
      (hrun : recover settings d = .ok n d') : Running settings n
  | handled {event : Event} {n : Node σ} (hn : Running settings n)
      (hharmless : event.IsHarmless n)
      (hwell : (outcome (handle event) n).1 = .ok ()) :
      Running settings { (outcome (handle event) n).2 with effects := [] }

omit [Faithful σ] in
theorem Running.along [Counting] (h : Running settings n) {event : ℕ → Event} {k : ℕ}
    (hstep : ∀ j < k, (event j).IsHarmless (n.along event j) ∧
      (outcome (handle (event j)) (n.along event j)).1 = .ok ()) :
    Running settings (n.along event k) := by
  refine keeps_along h fun j hlt hn => ?_
  obtain ⟨hharmless, hwell⟩ := hstep j hlt
  exact hn.handled hharmless hwell

omit [Faithful σ] in
theorem InWords.running (h : n.InWords settings Event.IsHarmless) : Running settings n :=
  h.keeps (fun _ _ _ hrun => .started hrun) fun _ _ hharmless hwell hn =>
    hn.handled hharmless hwell

theorem Running.dutiful (h : Running settings n) :
    n.Dutiful settings ∧ n.Saved := by
  induction h with
  | @started d d' n hrun =>
      exact ⟨dutiful_of_recover hrun,
        ((ensures_recover_isNew settings d).ok hrun).saved⟩
  | @handled event n hn hharmless hwell ih =>
      have hcourse := course_of_outcome ih.2 hwell
      exact ⟨(hcourse.dutiful ih.1 hharmless).drained, hcourse.saved ih.2⟩

/-- A server that waits to be added, and keeps no more than one entry if it need
not. -/
def newcomer : Node Memory :=
  fresh { members := [], compactionThreshold := 1 } ⟨{}, {}⟩

/-- The leader has committed the change that adds the server, and appended another
one. -/
def welcome : AppendRequest where
  term := 1
  leader := 2
  prevIndex := 0
  prevTerm := 0
  entries := [⟨1, 1, .noop⟩, ⟨1, 2, .config (.ofList [1, 2])⟩,
    ⟨1, 3, .config (.ofList [1, 2, 3])⟩]
  leaderCommit := 2

/-- The server once it has heard of both changes. -/
def added : Node Memory :=
  { (outcome (@handle Memory _ .words (.appendRequest 0 welcome)) newcomer).2 with
    effects := [] }

theorem isHarmless_welcome : welcome.IsHarmless newcomer where
  numbered := .cons rfl (.cons rfl (.cons rfl (.nil 3)))
  spares _ _ cut hcut := by
    have hnone : (newcomer.log.merge welcome.entries).cut = none := rfl
    exact absurd (hnone.symm.trans hcut) (by simp)

theorem hasRoom_welcome : newcomer.HasRoom (.appendRequest 0 welcome) where
  term helects := by simp at helects
  below := below_of_values (by decide)
  event := by decide

omit [Storage σ] [Faithful σ] in
theorem isHarmless_overflowTurn (k : ℕ) (n : Node σ) : (overflowTurn k).IsHarmless n := by
  unfold overflowTurn
  split
  case h_5 =>
    have hnone : (n.log.merge []).cut = none := rfl
    exact ⟨.nil 0, fun _ _ cut hcut => absurd (hnone.symm.trans hcut) (by simp)⟩
  all_goals trivial

omit [Faithful σ] in
/-- All that the node does on its way past the last word is allowed. -/
theorem running_overflowing {d d' : Durable σ} (hstart : @recover σ _ .words
      { members := [1, 2, 3] } d = .ok (overflowing d 0) d') {k : ℕ}
    (hwell : ∀ j < k, (outcome (@handle σ _ .words (overflowTurn j))
      (overflowing d j)).1 = .ok ()) :
    @Running σ _ .words { members := [1, 2, 3] } (overflowing d k) :=
  @Running.along σ _ _ _ .words (@Running.started σ _ .words _ _ _ _ hstart) _ _
    fun j hlt => ⟨isHarmless_overflowTurn j _, hwell j hlt⟩

end Node

end Consensus
