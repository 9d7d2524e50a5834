import Consensus.Proofs.Node.Level

/-!
# Everybody gets one answer

Between events callers wait at a leader only, each at the index of an entry of
its own: one of the leader's term, in the log and not applied yet.  So nobody is
put in the place of another, and whoever waits is answered once.

Every deed keeps it so.  Where a leadership is lost in the middle of an event the
callers are gone before the log may lose an entry.
-/

namespace Consensus

/-- The ticket of the caller that hands an event in. -/
def Event.ticket? : Event → Option ℕ
  | .voteRequest ticket _ => some ticket
  | .appendRequest ticket _ => some ticket
  | .installRequest ticket _ => some ticket
  | .command ticket _ => some ticket
  | .change ticket _ => some ticket
  | _ => none

/-- The entry carries a command. -/
def Payload.IsCommand : Payload → Prop
  | .command _ => True
  | _ => False

/-- The entry carries a membership. -/
def Payload.IsConfig : Payload → Prop
  | .config _ => True
  | _ => False

namespace Node

variable {σ : Type} {n n' m : Node σ} {event : Event} {ticket : ℕ}
  {t : Table Waiter} {IsFor : Payload → Prop}

/-! ## Who waits for what -/

/-- What waits at the index is an entry of the leader's term, not yet applied. -/
structure Expects (n : Node σ) (IsFor : Payload → Prop) (index : ℕ)
    (w : Waiter) : Prop where
  role : n.standing.role = .leader
  term : w.term = n.standing.currentTerm
  later : n.standing.lastApplied < index
  entry : ∃ payload, IsFor payload ∧
    n.log.get? index = some ⟨w.term, index, payload⟩

/-- Everybody in the table waits for an entry of its own. -/
structure Lines (n : Node σ) (IsFor : Payload → Prop) (t : Table Waiter) :
    Prop where
  distinct : t.Distinct
  expects : ∀ index w, t.get? index = some w → n.Expects IsFor index w

/-- Callers of commands wait for commands, operators for memberships. -/
structure Attentive (n : Node σ) : Prop where
  commands : n.Lines Payload.IsCommand n.commandWaiters
  changes : n.Lines Payload.IsConfig n.changeWaiters

theorem lines_empty (n : Node σ) (IsFor : Payload → Prop) :
    n.Lines IsFor ∅ where
  distinct := Table.distinct_empty
  expects index w hw := absurd hw (by simp)

/-- Nobody waits at a node that does not lead. -/
theorem Lines.eq_empty (h : n.Lines IsFor t) (hrole : n.standing.role ≠ .leader) :
    t = ∅ := by
  apply Table.eq_empty_of_get?
  intro index
  cases hw : t.get? index with
  | none => rfl
  | some w => exact absurd (h.expects index w hw).role hrole

/-- Callers go on to wait while the node leads in its term and keeps what is not
applied. -/
theorem Lines.of_same (h : n.Lines IsFor t)
    (hrole : n'.standing.role = n.standing.role)
    (hterm : n'.standing.currentTerm = n.standing.currentTerm)
    (happlied : n'.standing.lastApplied = n.standing.lastApplied)
    (hlog : ∀ index entry, n.standing.lastApplied < index →
      n.log.get? index = some entry → n'.log.get? index = some entry) :
    n'.Lines IsFor t where
  distinct := h.distinct
  expects index w hw := by
    have hexpects := h.expects index w hw
    obtain ⟨payload, hpayload, hentry⟩ := hexpects.entry
    constructor
    · rw [hrole, hexpects.role]
    · rw [hterm, hexpects.term]
    · rw [happlied]
      exact hexpects.later
    · exact ⟨payload, hpayload, hlog _ _ hexpects.later hentry⟩

theorem Attentive.of_same (h : n.Attentive)
    (hcommands : n'.commandWaiters = n.commandWaiters)
    (hchanges : n'.changeWaiters = n.changeWaiters)
    (hrole : n'.standing.role = n.standing.role)
    (hterm : n'.standing.currentTerm = n.standing.currentTerm)
    (happlied : n'.standing.lastApplied = n.standing.lastApplied)
    (hlog : ∀ index entry, n.standing.lastApplied < index →
      n.log.get? index = some entry → n'.log.get? index = some entry) :
    n'.Attentive := by
  constructor
  · rw [hcommands]
    exact h.commands.of_same hrole hterm happlied hlog
  · rw [hchanges]
    exact h.changes.of_same hrole hterm happlied hlog

/-- Nothing is expected of a node that neither leads nor did. -/
theorem Attentive.of_idle (h : n.Attentive) (hrole : n.standing.role ≠ .leader)
    (hcommands : n'.commandWaiters = n.commandWaiters)
    (hchanges : n'.changeWaiters = n.changeWaiters) : n'.Attentive := by
  constructor
  · rw [hcommands, h.commands.eq_empty hrole]
    exact lines_empty _ _
  · rw [hchanges, h.changes.eq_empty hrole]
    exact lines_empty _ _

theorem Attentive.of_none (hcommands : n.commandWaiters = ∅)
    (hchanges : n.changeWaiters = ∅) : n.Attentive := by
  constructor
  · rw [hcommands]
    exact lines_empty _ _
  · rw [hchanges]
    exact lines_empty _ _

/-- Nobody waits beyond the end of the log. -/
theorem Lines.get?_next (h : n.Lines IsFor t) (hlevel : n.Level) :
    t.get? (n.log.lastIndex + 1) = none := by
  cases hw : t.get? (n.log.lastIndex + 1) with
  | none => rfl
  | some w =>
      obtain ⟨payload, -, hentry⟩ := (h.expects _ w hw).entry
      have hrange := hlevel.gapless.range_of_get? hentry
      omega

/-- A caller comes for the entry that a leader has just appended. -/
theorem Lines.insert (h : n.Lines IsFor t) (hlevel : n.Level)
    (hrole : n.standing.role = .leader) {payload : Payload} (ticket : ℕ)
    (hpayload : IsFor payload) (hstanding : n'.standing = n.standing)
    (hlog : n'.log = n.log.push
      ⟨n.standing.currentTerm, n.log.lastIndex + 1, payload⟩) :
    n'.Lines IsFor (t.insert (n.log.lastIndex + 1)
      ⟨n.standing.currentTerm, ticket⟩) := by
  refine ⟨h.distinct.insert (h.get?_next hlevel) _, ?_⟩
  intro index w hw
  rw [Table.get?_insert] at hw
  split at hw
  · next hindex =>
    obtain rfl := Option.some.inj hw
    constructor
    · rw [hstanding, hrole]
    · rw [hstanding]
    · rw [hstanding, hindex]
      exact Nat.lt_succ_of_le hlevel.applied_le_last
    · refine ⟨payload, hpayload, ?_⟩
      rw [hlog, hindex]
      exact hlevel.gapless.get?_push_last rfl
  · have hexpects := h.expects index w hw
    obtain ⟨found, hfound, hentry⟩ := hexpects.entry
    constructor
    · rw [hstanding, hrole]
    · rw [hstanding]
      exact hexpects.term
    · rw [hstanding]
      exact hexpects.later
    · refine ⟨found, hfound, ?_⟩
      rw [hlog, hlevel.gapless.get?_push (hlevel.gapless.range_of_get? hentry).2.1]
      exact hentry

theorem changeWaiters_afterRoleChange (n : Node σ) (before : Role) :
    (n.afterRoleChange before).changeWaiters =
      if before ≠ .leader ∨ n.standing.role = .leader then n.changeWaiters
      else ∅ := by
  unfold afterRoleChange
  split <;> rfl

/-- Callers go on to wait only at a leader that leads on. -/
theorem Attentive.turned (h : n.Attentive) {s : Standing} {disk : σ}
    (hterm : s.role = .leader → s.currentTerm = n.standing.currentTerm)
    (happlied : s.lastApplied = n.standing.lastApplied) :
    (n.turned s disk).Attentive := by
  have hcommands : (n.turned s disk).commandWaiters = _ :=
    commandWaiters_afterRoleChange _ _
  have hchanges : (n.turned s disk).changeWaiters = _ :=
    changeWaiters_afterRoleChange _ _
  by_cases hrole : n.standing.role = .leader
  · by_cases hleads : s.role = .leader
    · have hcase : n.standing.role ≠ .leader ∨ s.role = .leader := Or.inr hleads
      rw [if_pos hcase] at hcommands hchanges
      apply h.of_same hcommands hchanges
      · rw [standing_turned, hleads, hrole]
      · rw [standing_turned, hterm hleads]
      · rw [standing_turned, happlied]
      · intro index entry _ hentry
        rw [log_turned]
        exact hentry
    · have hcase : ¬ (n.standing.role ≠ .leader ∨ s.role = .leader) :=
        not_or.mpr ⟨not_not.mpr hrole, hleads⟩
      rw [if_neg hcase] at hcommands hchanges
      exact .of_none hcommands hchanges
  · have hcase : n.standing.role ≠ .leader ∨ s.role = .leader := Or.inl hrole
    rw [if_pos hcase] at hcommands hchanges
    exact h.of_idle hrole hcommands hchanges

/-! ## Applying -/

/-- Whoever waits at the index has been answered once the entry is applied. -/
theorem Lines.erase_applied (h : n.Lines IsFor t)
    (hstanding : n'.standing =
      { n.standing with lastApplied := n.standing.lastApplied + 1 })
    (hlog : n'.log = n.log) :
    n'.Lines IsFor (t.erase (n.standing.lastApplied + 1)) where
  distinct := h.distinct.erase _
  expects index w hw := by
    rw [Table.get?_erase] at hw
    split at hw
    · exact absurd hw (by simp)
    · next hother =>
      have hexpects := h.expects index w hw
      have hlater := hexpects.later
      constructor
      · rw [hstanding]
        exact hexpects.role
      · rw [hstanding]
        exact hexpects.term
      · rw [hstanding]
        change n.standing.lastApplied + 1 < index
        omega
      · rw [hlog]
        exact hexpects.entry

theorem Attentive.applied (h : n.Attentive) (entry : Entry) :
    (n.applyEntry entry (n.standing.lastApplied + 1)).Attentive := by
  have henacted := enacted_applyEntry n entry (n.standing.lastApplied + 1)
  have hlog := congrArg Journal.log henacted.journal
  obtain ⟨hcommands, hchanges⟩ :=
    n.applyEntry_waiters entry (n.standing.lastApplied + 1)
  constructor
  · rw [hcommands]
    exact h.commands.erase_applied henacted.standing hlog
  · rw [hchanges]
    exact h.changes.erase_applied henacted.standing hlog

/-- Whoever waits for a command at the next index is told that it was applied,
right after the consumer got it. -/
theorem Attentive.effects_applied (h : n.Attentive) {entry : Entry} {w : Waiter}
    (hentry : n.log.get? (n.standing.lastApplied + 1) = some entry)
    (hw : n.commandWaiters.get? (n.standing.lastApplied + 1) = some w) :
    ∃ payload, entry = ⟨w.term, n.standing.lastApplied + 1, .command payload⟩ ∧
      (n.applyEntry entry (n.standing.lastApplied + 1)).effects =
        n.effects ++ [.consume (n.standing.lastApplied + 1) payload] ++
          [.answer w.ticket (.applied (n.standing.lastApplied + 1))] := by
  obtain ⟨found, hfound, hheld⟩ := (h.commands.expects _ w hw).entry
  obtain rfl := Option.some.inj (hentry.symm.trans hheld)
  cases found with
  | noop => exact hfound.elim
  | config members => exact hfound.elim
  | command payload =>
      -- the entry is a command, so no operator waits for it
      have hnone : n.changeWaiters.get? (n.standing.lastApplied + 1) = none := by
        cases hw' : n.changeWaiters.get? (n.standing.lastApplied + 1) with
        | none => rfl
        | some w' =>
            obtain ⟨other, hother, hheld'⟩ := (h.changes.expects _ w' hw').entry
            obtain rfl := congrArg Entry.payload
              (Option.some.inj (hentry.symm.trans hheld'))
            exact hother.elim
      refine ⟨payload, rfl, ?_⟩
      let index := n.standing.lastApplied + 1
      let consumed := (n.consume index payload).mapStanding fun s =>
        { s with lastApplied := index }
      have hcommand : consumed.answerCommand index w.term =
          { consumed.emit (.answer w.ticket (.applied index)) with
            commandWaiters := n.commandWaiters.erase index } := by
        have hw : consumed.commandWaiters.get? index = some w := hw
        unfold answerCommand
        rw [hw]
        dsimp only
        rw [if_pos rfl]
        rfl
      have hchange : (consumed.answerCommand index w.term).answerChange index
          w.term = consumed.answerCommand index w.term := by
        rw [hcommand]
        unfold answerChange
        split
        · rfl
        · next w' hw' => exact absurd (hw'.symm.trans hnone) (by simp)
      change ((consumed.answerCommand index w.term).answerChange index
        w.term).effects = _
      rw [hchange, hcommand]
      rfl

variable [Storage σ]

/-! ## Deeds -/

omit [Storage σ] in
theorem Takes.not_leader {request : AppendRequest}
    (h : n.Takes event request) : n.standing.role ≠ .leader := by
  rw [h.role]
  simp

omit [Storage σ] in
theorem Admits.not_leader {request : InstallRequest}
    (h : n.Admits event request) : n.standing.role ≠ .leader := by
  rw [h.role]
  simp

/-- A log that grows at its end keeps what it had. -/
theorem Level.get?_appended (h : n.Level) {payload : Payload} {index : ℕ}
    {j : Journal σ} (hrun : Journal.append n.standing.currentTerm payload
      n.toJournal = .ok index j) {i : ℕ} {entry : Entry}
    (hentry : n.log.get? i = some entry) : j.log.get? i = some entry := by
  obtain ⟨-, hlog⟩ := Journal.log_append hrun
  rw [hlog, h.gapless.get?_push (h.gapless.range_of_get? hentry).2.1]
  exact hentry

/-- A log that is compacted keeps what is not applied. -/
theorem Level.get?_compacted (h : n.Level) {term : ℕ} {disk : σ} {j : Journal σ}
    (hlong : n.Overflows term)
    (hrun : Journal.compactTo n.standing.lastApplied term ⟨n.log, disk⟩ =
      .ok () j) {i : ℕ} (hlt : n.standing.lastApplied < i) :
    j.log.get? i = n.log.get? i := by
  have hlog : j.log = n.log.dropThrough n.standing.lastApplied term :=
    Journal.log_compactTo (j := ⟨n.log, disk⟩) hlong.new hrun
  rw [hlog]
  exact Log.get?_dropThrough h.boundary_le hlt term

theorem Opens.attentive (h : Opens event n n') (hlevel : n.Level)
    (hn : n.Attentive) : n'.Attentive := by
  have hsame : ∀ m : Node σ, m.commandWaiters = n.commandWaiters →
      m.changeWaiters = n.changeWaiters → m.standing = n.standing →
      m.log = n.log → m.Attentive := by
    intro m hcommands hchanges hstanding hlog
    apply hn.of_same hcommands hchanges
    · rw [hstanding]
    · rw [hstanding]
    · rw [hstanding]
    · intro index entry _ hentry
      rw [hlog]
      exact hentry
  cases h with
  | turned hturns =>
      exact hn.turned hturns.currentTerm_of_leader hturns.indices.2
  | waited => exact hsame _ rfl rfl rfl rfl
  | counted =>
      exact hn.of_same rfl rfl rfl rfl rfl fun _ _ _ hentry => hentry
  | crowned hrole => exact hn.of_idle (by rw [hrole]; simp) rfl rfl
  | noted helects hrole hrun =>
      exact hn.of_same rfl rfl rfl rfl rfl fun _ _ _ hentry =>
        hlevel.get?_appended hrun hentry
  | @accepted ticket index payload j haccepted hrole hrun =>
      obtain ⟨rfl, hlog⟩ := Journal.log_append hrun
      have hcommand : Payload.IsCommand (.command payload) := trivial
      constructor
      · exact hn.commands.insert hlevel hrole ticket hcommand rfl hlog
      · exact hn.changes.of_same rfl rfl rfl fun _ _ _ hentry =>
          hlevel.get?_appended hrun hentry
  | @proposed ticket index change j hproposed hrole hpending hchanges hrun =>
      obtain ⟨rfl, hlog⟩ := Journal.log_append hrun
      have hconfig : Payload.IsConfig
        (.config (n.membership.committed.withChange change)) := trivial
      constructor
      · exact hn.commands.of_same rfl rfl rfl fun _ _ _ hentry =>
          hlevel.get?_appended hrun hentry
      · exact hn.changes.insert hlevel hrole ticket hconfig rfl hlog
  | merged htakes => exact hn.of_idle htakes.not_leader rfl rfl
  | refreshed => exact hsame _ rfl rfl rfl rfl
  | rebased hadmits => exact hn.of_idle hadmits.not_leader rfl rfl
  | recorded => exact hsame _ rfl rfl rfl rfl

omit [Storage σ] in
theorem Commits.attentive (h : Commits event n n') (hn : n.Attentive) :
    n'.Attentive := by
  cases h with
  | committed =>
      exact hn.of_same rfl rfl rfl rfl rfl fun _ _ _ hentry => hentry

theorem Closes.attentive (h : Closes event n n') (hlevel : n.Level)
    (hn : n.Attentive) : n'.Attentive := by
  cases h with
  | applied => exact hn.applied _
  | retired =>
      have hstanding := n.retiring_eq
      apply hn.turned
      · intro hleads
        rw [hstanding] at hleads
        exact absurd hleads (by simp)
      · rw [hstanding]
  | announced => exact hn.of_same rfl rfl rfl rfl rfl fun _ _ _ hentry => hentry
  | compacted hlong hsaved hrun =>
      exact hn.of_same rfl rfl rfl rfl rfl fun _ _ hlt hentry =>
        (hlevel.get?_compacted hlong hrun hlt).trans hentry
  | dispatched => exact hn.of_same rfl rfl rfl rfl rfl fun _ _ _ hentry => hentry
  | campaigned => exact hn.of_same rfl rfl rfl rfl rfl fun _ _ _ hentry => hentry
  | answered => exact hn.of_same rfl rfl rfl rfl rfl fun _ _ _ hentry => hentry

/-- A node at which everybody waits for an entry of its own. -/
structure Steady (n : Node σ) : Prop where
  level : n.Level
  attentive : n.Attentive

theorem Opening.steady (h : Opening event n n') (hn : n.Steady)
    (hevent : event.IsHarmless n) : n'.Steady := by
  have hkept := keeps_of_reflTransGen h
    (I := fun m => m.Steady ∧ event.IsHarmless m) ?_ ⟨hn, hevent⟩
  · exact hkept.1
  · rintro a b hstep ⟨ha, hharmless⟩
    obtain ⟨hlevel, hharmless'⟩ := hstep.level ha.level hharmless
    exact ⟨⟨hlevel, hstep.attentive ha.level ha.attentive⟩, hharmless'⟩

omit [Storage σ] in
theorem Commits.steady (h : Commits event n n') (hn : n.Steady) : n'.Steady :=
  ⟨h.level hn.level, h.attentive hn.attentive⟩

theorem Closes.steady (h : Closes event n n') (hn : n.Steady) : n'.Steady :=
  ⟨h.level hn.level, h.attentive hn.level hn.attentive⟩

theorem Closing.steady (h : Closing event n n') (hn : n.Steady) : n'.Steady :=
  keeps_of_reflTransGen h (fun _ _ hstep hm => hstep.steady hm) hn

theorem Settling.steady (h : Settling event n n') (hn : n.Steady) :
    n'.Steady := by
  obtain ⟨m, hcommitting, hclosing⟩ := h
  apply hclosing.steady
  cases hcommitting with
  | refl => exact hn
  | single hstep => exact hstep.steady hn

theorem Course.steady (h : Course event n n') (hn : n.Steady)
    (hevent : event.IsHarmless n) : n'.Steady := by
  obtain ⟨m, hopening, hsettling⟩ := h
  exact hsettling.steady (hopening.steady hn hevent)

/-! ## Everybody is answered once -/

omit [Storage σ] in
theorem Answers.ticket? {found : ℕ} {answer : Answer}
    (h : n.Answers event found answer) : event.ticket? = some found := by
  cases h <;> rfl

/-- Whatever others hand in, a caller goes on to wait or is answered. -/
theorem Opens.dues (h : Opens event n n') (hn : n.Steady)
    (hticket : event.ticket? ≠ some ticket) :
    n'.dues ticket = n.dues ticket := by
  cases h with
  | turned => exact dues_turned _ _ _ _
  | waited => exact n.dues_emit_of_quiet rfl
  | counted => exact dues_of_same rfl rfl rfl
  | crowned => exact n.dues_crowned ticket
  | noted => exact dues_of_same rfl rfl rfl
  | @accepted found index payload j haccepted hrole hrun =>
      subst haccepted
      obtain ⟨rfl, -⟩ := Journal.log_append hrun
      have hnone := hn.attentive.commands.get?_next hn.level
      have hother : found ≠ ticket := fun heq => hticket (congrArg some heq)
      have hcame := n.commandWaiters.holders_insert hnone
        ⟨n.standing.currentTerm, found⟩ ticket
      rw [if_neg hother] at hcame
      change n.effects.countP _ + _ + n.changeWaiters.holders ticket = _
      rw [hcame, Nat.add_zero]
      rfl
  | @proposed found index change j hproposed hrole hpending hchanges hrun =>
      subst hproposed
      obtain ⟨rfl, -⟩ := Journal.log_append hrun
      have hnone := hn.attentive.changes.get?_next hn.level
      have hother : found ≠ ticket := fun heq => hticket (congrArg some heq)
      have hcame := n.changeWaiters.holders_insert hnone
        ⟨n.standing.currentTerm, found⟩ ticket
      rw [if_neg hother] at hcame
      refine (dues_syncPeers _ _ _ ticket).trans ?_
      change n.effects.countP _ + n.commandWaiters.holders ticket + _ = _
      rw [hcame, Nat.add_zero]
      rfl
  | merged => exact dues_of_same rfl rfl rfl
  | refreshed => exact dues_of_same rfl rfl rfl
  | rebased => exact dues_of_same rfl rfl rfl
  | recorded => exact dues_of_same rfl rfl rfl

theorem Closes.dues (h : Closes event n n') (hn : n.Steady)
    (hticket : event.ticket? ≠ some ticket) :
    n'.dues ticket = n.dues ticket := by
  cases h with
  | applied =>
      exact dues_applyEntry hn.attentive.commands.distinct
        hn.attentive.changes.distinct _ _ _
  | retired => exact dues_turned _ _ _ _
  | announced => exact n.dues_emit_of_quiet rfl
  | compacted => exact dues_of_same rfl rfl rfl
  | dispatched =>
      refine dues_of_quiet (n := n) rfl ?_ rfl rfl
      intro effect heffect
      rw [List.mem_singleton.mp heffect]
      rfl
  | campaigned =>
      refine dues_of_quiet (n := n) rfl ?_ rfl rfl
      intro effect heffect
      obtain ⟨peer, -, rfl⟩ := List.mem_map.mp heffect
      rfl
  | @answered found answer hanswers =>
      have hother : found ≠ ticket := by
        rintro rfl
        exact hticket hanswers.ticket?
      rw [dues_emit_answer, if_neg hother, Nat.add_zero]

theorem Settling.dues (h : Settling event n n') (hn : n.Steady)
    (hticket : event.ticket? ≠ some ticket) :
    n'.dues ticket = n.dues ticket := by
  obtain ⟨m, hcommitting, hclosing⟩ := h
  have hm : m.Steady ∧ m.dues ticket = n.dues ticket := by
    cases hcommitting with
    | refl => exact ⟨hn, rfl⟩
    | single hstep =>
        refine ⟨hstep.steady hn, ?_⟩
        cases hstep with
        | committed => exact dues_of_same rfl rfl rfl
  have hkept := keeps_of_reflTransGen hclosing
    (I := fun k => k.Steady ∧ k.dues ticket = n.dues ticket) ?_ hm
  · exact hkept.2
  · rintro a b hstep ⟨ha, hdues⟩
    exact ⟨hstep.steady ha, (hstep.dues ha hticket).trans hdues⟩

/-- An event of somebody else neither forgets a caller nor answers it twice. -/
theorem Course.dues (h : Course event n n') (hn : n.Steady)
    (hevent : event.IsHarmless n) (hticket : event.ticket? ≠ some ticket) :
    n'.dues ticket = n.dues ticket := by
  obtain ⟨m, hopening, hsettling⟩ := h
  have hkept := keeps_of_reflTransGen hopening (I := fun k =>
    (k.Steady ∧ event.IsHarmless k) ∧ k.dues ticket = n.dues ticket) ?_
    ⟨⟨hn, hevent⟩, rfl⟩
  · exact (hsettling.dues hkept.1.1 hticket).trans hkept.2
  · rintro a b hstep ⟨⟨ha, hharmless⟩, hdues⟩
    obtain ⟨hlevel, hharmless'⟩ := hstep.level ha.level hharmless
    exact ⟨⟨⟨hlevel, hstep.attentive ha.level ha.attentive⟩, hharmless'⟩,
      (hstep.dues ha hticket).trans hdues⟩

end Node

end Consensus
