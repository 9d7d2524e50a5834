import Consensus.Node.Recovery
import Consensus.Proofs.JournalLog
import Consensus.Proofs.Node.Pledging
import Consensus.Proofs.Node.Resuming
import Consensus.Proofs.Node.Waiting

/-!
# The applied part of a log

On any disk, whatever terms the entries have, a node has a log without a gap in
which everything is there that it applied.  All that is asked of leaders is that
the entries they send follow one another, and that taking them over cuts off
nothing that is applied.
-/

namespace Consensus

/-! ## Harmless requests -/

/-- The entries follow one another, and if they are taken over nothing is cut off
that is applied. -/
structure AppendRequest.IsHarmless {σ : Type} (request : AppendRequest)
    (n : Node σ) : Prop where
  numbered : NumberedFrom request.prevIndex request.entries
  spares : n.standing.currentTerm ≤ request.term →
    n.log.matchesAt request.prevIndex request.prevTerm = true →
    ∀ cut, (n.log.merge request.entries).cut = some cut →
      n.standing.lastApplied < cut

/-- The entries follow one another, and contradict no entry that the node knows to
be committed. -/
structure AppendRequest.Agrees {σ : Type} (request : AppendRequest)
    (n : Node σ) : Prop where
  numbered : NumberedFrom request.prevIndex request.entries
  agrees : ∀ entry ∈ request.entries, entry.index ≤ n.standing.commitIndex →
    ∀ held, n.log.get? entry.index = some held → held.term = entry.term

/-- Leaders contradict nothing that the node knows to be committed. -/
def Event.Agrees {σ : Type} (event : Event) (n : Node σ) : Prop :=
  match event with
  | .appendRequest _ request => request.Agrees n
  | _ => True

/-- Leaders cut off nothing that the node has applied. -/
def Event.IsHarmless {σ : Type} (event : Event) (n : Node σ) : Prop :=
  match event with
  | .appendRequest _ request => request.IsHarmless n
  | _ => True

theorem Event.isHarmless_of_leader? {σ : Type} {event : Event}
    (h : event.leader? = none) (n : Node σ) : event.IsHarmless n := by
  cases event with
  | appendRequest => exact absurd h (by simp [Event.leader?])
  | _ => trivial

namespace Node

variable {σ : Type} {n n' : Node σ} {event : Event}

/-- The log has no gap, and what is applied lies in it. -/
structure Level (n : Node σ) : Prop where
  gapless : n.log.Gapless
  boundary_le : n.log.snapshotIndex ≤ n.standing.lastApplied
  applied_le : n.standing.lastApplied ≤ n.standing.commitIndex
  applied_le_last : n.standing.lastApplied ≤ n.log.lastIndex

theorem Level.of_same (h : n.Level) (hlog : n'.log = n.log)
    (hcommit : n'.standing.commitIndex = n.standing.commitIndex)
    (happlied : n'.standing.lastApplied = n.standing.lastApplied) :
    n'.Level := by
  constructor
  · rw [hlog]
    exact h.gapless
  · rw [hlog, happlied]
    exact h.boundary_le
  · rw [happlied, hcommit]
    exact h.applied_le
  · rw [hlog, happlied]
    exact h.applied_le_last

theorem isHarmless_of_same (h : event.IsHarmless n) (hlog : n'.log = n.log)
    (hterm : n.standing.currentTerm ≤ n'.standing.currentTerm)
    (happlied : n'.standing.lastApplied = n.standing.lastApplied) :
    event.IsHarmless n' := by
  cases event with
  | appendRequest ticket request =>
      have hharmless : request.IsHarmless n := h
      constructor
      · exact hharmless.numbered
      · rw [hlog, happlied]
        intro hle
        exact hharmless.spares (hterm.trans hle)
  | _ => trivial

/-- Other entries come after what is applied. -/
theorem Level.splice (h : n.Level) {kept : ℕ} {fresh : List Entry}
    (hadjoins : n.log.Adjoins kept fresh) (hkept : n.standing.lastApplied ≤ kept)
    (hlog : n'.log = n.log.splice kept fresh)
    (happlied : n'.standing.lastApplied = n.standing.lastApplied)
    (hcommit : n.standing.commitIndex ≤ n'.standing.commitIndex) :
    n'.Level := by
  constructor
  · rw [hlog]
    exact h.gapless.splice hadjoins
  · rw [hlog, happlied]
    exact h.boundary_le
  · rw [happlied]
    exact h.applied_le.trans hcommit
  · rw [hlog, happlied, h.gapless.lastIndex_splice hadjoins]
    exact hkept.trans (Nat.le_add_right _ _)

/-- A new entry comes at the end. -/
theorem Level.push (h : n.Level) {entry : Entry}
    (hindex : entry.index = n.log.lastIndex + 1)
    (hlog : n'.log = n.log.push entry) (hstanding : n'.standing = n.standing) :
    n'.Level := by
  rw [h.gapless.push_eq] at hlog
  apply h.splice (h.gapless.adjoins_single hindex) h.applied_le_last hlog
  · rw [hstanding]
  · rw [hstanding]

/-- The log begins with what is applied. -/
theorem Level.of_boundary (hgapless : n.log.Gapless)
    (hboundary : n.log.snapshotIndex = n.standing.lastApplied)
    (hcommit : n.standing.lastApplied ≤ n.standing.commitIndex) : n.Level where
  gapless := hgapless
  boundary_le := hboundary.le
  applied_le := hcommit
  applied_le_last := hboundary ▸ hgapless.boundary_le_last

/-! ## Deeds -/

/-- The entries of a leader join the log after what is applied. -/
theorem Level.exists_meets (h : n.Level) {request : AppendRequest}
    (htakes : n.Takes event request) (hevent : event.IsHarmless n) :
    ∃ kept early fresh, n.log.Meets request.prevIndex request.entries kept early
      fresh ∧ n.standing.lastApplied ≤ kept := by
  obtain ⟨ticket, rfl⟩ := htakes.event
  have hharmless : request.IsHarmless n := hevent
  obtain ⟨kept, early, fresh, hmeets⟩ := h.gapless.exists_meets
    hharmless.numbered (h.gapless.le_last_of_matchesAt htakes.fits)
  refine ⟨kept, early, fresh, hmeets, ?_⟩
  rcases hmeets.merge with ⟨-, rfl⟩ | ⟨hmerge, -, -⟩
  · exact h.applied_le_last
  · have hspared := hharmless.spares htakes.term.ge htakes.fits (kept + 1)
      (congrArg Log.Merge.cut hmerge)
    exact Nat.le_of_lt_succ hspared

/-- The entries of a request that was taken over cut off nothing more. -/
theorem Takes.isHarmless {request : AppendRequest} {m : Node σ}
    (htakes : n.Takes event request) (hn : n.Level) (hevent : event.IsHarmless n)
    {kept : ℕ} {early fresh : List Entry}
    (hmeets : n.log.Meets request.prevIndex request.entries kept early fresh)
    (hlog : m.log = n.log.splice kept fresh) : event.IsHarmless m := by
  obtain ⟨ticket, rfl⟩ := htakes.event
  have hharmless : request.IsHarmless n := hevent
  have hmerge : m.log.merge request.entries = ⟨none, []⟩ := by
    rw [hlog]
    apply Log.merge_of_held
    intro entry hentry hlt
    exact hmeets.held_splice hn.gapless hentry hlt
  constructor
  · exact hharmless.numbered
  · intro _ _ cut hcut
    rw [hmerge] at hcut
    exact absurd hcut (by simp)

/-- A request that contradicts nothing that is committed cuts off nothing that is
applied. -/
theorem Level.isHarmless (hn : n.Level) (h : event.Agrees n) :
    event.IsHarmless n := by
  cases event with
  | appendRequest ticket request =>
      have hagrees : request.Agrees n := h
      constructor
      · exact hagrees.numbered
      · intro _ hmatches cut hcut
        obtain ⟨kept, early, fresh, hmeets⟩ := hn.gapless.exists_meets
          hagrees.numbered (hn.gapless.le_last_of_matchesAt hmatches)
        rcases hmeets.merge with ⟨hmerge, -⟩ |
          ⟨hmerge, -, entry, hentry, hindex, term, hterm, hconflict⟩
        · rw [hmerge] at hcut
          exact absurd hcut (by simp)
        · rw [hmerge] at hcut
          obtain rfl := Option.some.inj hcut
          have hboundary := hmeets.adjoins.boundary_le
          rw [Log.termAt?_eq_get? (by omega)] at hterm
          obtain ⟨held, hheld, rfl⟩ := Option.map_eq_some_iff.mp hterm
          by_contra hcuts
          have happlied := hn.applied_le
          exact hconflict (hagrees.agrees entry hentry (by omega) held hheld)
  | _ => trivial

variable [Storage σ]

theorem Opens.level (h : Opens event n n') (hn : n.Level)
    (hevent : event.IsHarmless n) : n'.Level ∧ event.IsHarmless n' := by
  have hsame : ∀ m : Node σ, m.log = n.log → m.standing = n.standing →
      m.Level ∧ event.IsHarmless m := by
    intro m hlog hstanding
    have happlied := congrArg Standing.lastApplied hstanding
    have hterm := congrArg Standing.currentTerm hstanding
    exact ⟨hn.of_same hlog (congrArg Standing.commitIndex hstanding) happlied,
      isHarmless_of_same hevent hlog hterm.ge happlied⟩
  have hpush : ∀ m : Node σ, ∀ (payload : Payload) (index : ℕ) (j : Journal σ),
      Journal.append n.standing.currentTerm payload n.toJournal = .ok index j →
      m.log = j.log → m.standing = n.standing → m.Level := by
    intro m payload index j hrun hlog hstanding
    obtain ⟨hindex, hpushed⟩ := Journal.log_append hrun
    exact hn.push hindex (hlog.trans hpushed) hstanding
  cases h with
  | turned hturns =>
      obtain ⟨hcommit, happlied⟩ := hturns.indices
      constructor
      · apply hn.of_same (log_turned _ _ _)
        · rw [standing_turned, hcommit]
        · rw [standing_turned, happlied]
      · apply isHarmless_of_same hevent (log_turned _ _ _)
        · rw [standing_turned]
          exact HardState.currentTerm_le hturns.hardState_le
        · rw [standing_turned, happlied]
  | waited => exact hsame _ rfl rfl
  | counted =>
      exact ⟨hn.of_same rfl rfl rfl,
        isHarmless_of_same hevent rfl le_rfl rfl⟩
  | crowned =>
      have hlog := n.aside_crowned.log
      have hstanding := n.standing_crowned
      constructor
      · apply hn.of_same hlog
        · rw [hstanding]
          rfl
        · rw [hstanding]
          rfl
      · apply isHarmless_of_same hevent hlog
        · rw [hstanding]
          exact le_rfl
        · rw [hstanding]
          rfl
  | noted helects hrole hrun =>
      exact ⟨hpush _ _ _ _ hrun rfl rfl,
        Event.isHarmless_of_leader? helects.leader? _⟩
  | accepted haccepted hrole hrun =>
      subst haccepted
      exact ⟨hpush _ _ _ _ hrun rfl rfl, trivial⟩
  | proposed hproposed hrole hpending hchanges hrun =>
      subst hproposed
      exact ⟨hpush _ _ _ _ hrun rfl rfl, trivial⟩
  | merged htakes hrun =>
      obtain ⟨kept, early, fresh, hmeets, hkept⟩ :=
        hn.exists_meets htakes hevent
      obtain ⟨-, hlog⟩ := Journal.log_appendFromLeader hn.gapless hmeets hrun
      constructor
      · exact hn.splice hmeets.adjoins hkept hlog rfl (Nat.le_max_left _ _)
      · exact htakes.isHarmless hn hevent hmeets hlog
  | refreshed => exact hsame _ rfl rfl
  | @rebased request disk j recorder hadmits hsaved hrun hrestored =>
      obtain ⟨ticket, rfl⟩ := hadmits.event
      have hlt := hn.boundary_le.trans_lt hadmits.new
      obtain ⟨hgapless, hboundary⟩ := Journal.gapless_rebase
        (j := ⟨n.log, disk⟩) hn.gapless hlt hrun
      exact ⟨.of_boundary hgapless hboundary (Nat.le_max_right _ _), trivial⟩
  | recorded => exact hsame _ rfl rfl

omit [Storage σ] in
theorem Commits.level (h : Commits event n n') (hn : n.Level) : n'.Level := by
  cases h with
  | committed hevent hrole hmore hterm =>
      exact { hn with applied_le := hn.applied_le.trans hmore.le }

theorem Closes.level (h : Closes event n n') (hn : n.Level) : n'.Level := by
  cases h with
  | @applied entry hmore hentry =>
      have henacted := enacted_applyEntry n entry (n.standing.lastApplied + 1)
      have hlog := congrArg Journal.log henacted.journal
      have hrange := hn.gapless.range_of_get? hentry
      constructor
      · rw [hlog]
        exact hn.gapless
      · rw [hlog, henacted.standing]
        exact hn.boundary_le.trans (Nat.le_succ _)
      · rw [henacted.standing]
        exact hmore
      · rw [hlog, henacted.standing]
        exact hrange.2.1
  | retired =>
      apply hn.of_same (log_turned _ _ _)
      · rw [standing_turned, retiring_eq]
      · rw [standing_turned, retiring_eq]
  | announced => exact hn.of_same rfl rfl rfl
  | @compacted term disk j hlong hsaved hrun =>
      have hlog : j.log = n.log.dropThrough n.standing.lastApplied term :=
        Journal.log_compactTo (j := ⟨n.log, disk⟩) hlong.new hrun
      apply Level.of_boundary
      · exact hlog ▸ hn.gapless.dropThrough hn.boundary_le term
      · exact congrArg Log.snapshotIndex hlog
      · exact hn.applied_le
  | dispatched => exact hn.of_same rfl rfl rfl
  | campaigned => exact hn.of_same rfl rfl rfl
  | answered => exact hn.of_same rfl rfl rfl

/-- What is applied stays in the log, whatever a node does. -/
theorem Opening.level (h : Opening event n n') (hn : n.Level)
    (hevent : event.IsHarmless n) : n'.Level ∧ event.IsHarmless n' :=
  keeps_of_reflTransGen h (I := fun m => m.Level ∧ event.IsHarmless m)
    (fun _ _ hstep hm => hstep.level hm.1 hm.2) ⟨hn, hevent⟩

theorem Settling.level (h : Settling event n n') (hn : n.Level) : n'.Level := by
  obtain ⟨m, hcommitting, hclosing⟩ := h
  apply keeps_of_reflTransGen hclosing fun _ _ hstep hm => hstep.level hm
  cases hcommitting with
  | refl => exact hn
  | single hstep => exact hstep.level hn

theorem Course.level (h : Course event n n') (hn : n.Level)
    (hevent : event.IsHarmless n) : n'.Level := by
  obtain ⟨m, hopening, hsettling⟩ := h
  exact hsettling.level (hopening.level hn hevent).1

/-! ## Starting -/

/-- A log that is read has no gap. -/
theorem ensures_load_gapless (index term : ℕ) (disk : σ) :
    Ensures (Log.load index term) disk
      (fun log _ => log.snapshotIndex = index ∧ log.Gapless)
      fun _ => True := by
  unfold Log.load
  apply Ensures.bind
  apply Ensures.of_runs
  · intro stored disk _
    apply Ensures.ite
    · intro _
      apply Ensures.bind
      apply Ensures.of_runs
      · intro _ disk _
        dsimp only
        split
        · trivial
        · next hclean => exact ⟨rfl, (firstFlaw?_eq_none_iff.mp hclean).1⟩
      · intro _ _ _
        trivial
    · intro _
      dsimp only
      split
      · trivial
      · next hclean => exact ⟨rfl, (firstFlaw?_eq_none_iff.mp hclean).1⟩
  · intro _ _ _
    trivial

/-- A node that has just started, with nobody waiting for anything. -/
structure IsNew (n : Node σ) : Prop where
  level : n.Level
  saved : n.Saved
  role : n.standing.role = .follower
  peers : n.peers = ∅
  commandWaiters : n.commandWaiters = ∅
  changeWaiters : n.changeWaiters = ∅
  effects : n.effects = []

theorem ensures_recover_isNew (settings : Settings) (d : Durable σ) :
    Ensures (recover settings) d (fun n _ => n.IsNew) fun _ => True := by
  unfold recover
  cases settings.validate with
  | error e => trivial
  | ok a =>
      apply Ensures.bind
      apply Ensures.of_runs _ fun _ _ _ => trivial
      intro hard d _
      apply Ensures.bind
      apply Ensures.of_runs _ fun _ _ _ => trivial
      intro snapshot d _
      apply Ensures.bind
      apply Ensures.onPart
      apply (ensures_load_gapless _ _ _).mono _ fun _ h => h
      rintro log disk ⟨hboundary, hgapless⟩
      apply Ensures.ite
      · intro _
        trivial
      intro _
      apply Ensures.andThen ((ensures_catchUp snapshot _).mono
        (fun _ _ hd => hd.2) fun _ _ => trivial)
      intro applied d hcaught
      apply Ensures.ite
      · intro _
        trivial
      intro hreach
      have hcovered : log.snapshotIndex ≤ applied := by
        rw [hboundary]
        exact CaughtUp.boundary_le (s := { snapshot := snapshot }) hcaught
      exact {
        level := ⟨hgapless, hcovered, le_rfl, not_lt.mp hreach⟩
        saved := rfl
        role := rfl
        peers := rfl
        commandWaiters := rfl
        changeWaiters := rfl
        effects := rfl }

end Node

end Consensus
