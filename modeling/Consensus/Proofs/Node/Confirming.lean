import Consensus.Proofs.Node.Attending

/-!
# Only what was applied is confirmed

A caller is told that its command was applied only at the deed that applies it:
the consumer has got the command, and the entry is committed and in the log at
the index that the caller waited at, in the term in which it was accepted.  That
deed is found on the way that the event took, wherever it ends.
-/

namespace Consensus

namespace Node

variable {σ : Type} [Storage σ] {n n' m k : Node σ} {event : Event}
  {ticket index term : ℕ} {payload : Bytes} {before after : List Effect}

/-! ## Who goes on to wait -/

/-- A caller that waits at the later node waited before, for the same entry. -/
def Retains (ticket : ℕ) (n n' : Node σ) : Prop :=
  ∀ index w, n'.commandWaiters.get? index = some w → w.ticket = ticket →
    n.commandWaiters.get? index = some w ∧ n'.log.get? index = n.log.get? index

omit [Storage σ] in
theorem Retains.refl (ticket : ℕ) (n : Node σ) : Retains ticket n n :=
  fun _ _ hw _ => ⟨hw, rfl⟩

omit [Storage σ] in
theorem Retains.trans (h : Retains ticket n m) (h' : Retains ticket m n') :
    Retains ticket n n' := by
  intro index w hw hfound
  obtain ⟨hw, hlog⟩ := h' index w hw hfound
  obtain ⟨hw, hlog'⟩ := h index w hw hfound
  exact ⟨hw, hlog.trans hlog'⟩

omit [Storage σ] in
theorem Retains.of_log (hlog : n'.log = n.log)
    (hwaiters : ∀ index w, n'.commandWaiters.get? index = some w →
      n.commandWaiters.get? index = some w) : Retains ticket n n' :=
  fun index w hw _ => ⟨hwaiters index w hw, congrArg (·.get? index) hlog⟩

omit [Storage σ] in
theorem Retains.of_idle (hn : n.Attentive) (hrole : n.standing.role ≠ .leader)
    (hwaiters : n'.commandWaiters = n.commandWaiters) : Retains ticket n n' := by
  intro index w hw _
  rw [hwaiters, hn.commands.eq_empty hrole] at hw
  exact absurd hw (by simp)

theorem Opens.retains (h : Opens event n n') (hn : n.Steady)
    (hticket : event.ticket? ≠ some ticket) : Retains ticket n n' := by
  -- whatever is appended, those who wait have their entries in the log already
  have happend : ∀ {payload : Payload} {index : ℕ} {j : Journal σ},
      Journal.append n.standing.currentTerm payload n.toJournal =
        .ok index j → ∀ i w, n.commandWaiters.get? i = some w →
      j.log.get? i = n.log.get? i := by
    intro payload index j hrun i w hw
    obtain ⟨found, -, hentry⟩ := (hn.attentive.commands.expects i w hw).entry
    rw [hentry]
    exact hn.level.get?_appended hrun hentry
  cases h with
  | turned =>
      apply Retains.of_log (log_turned _ _ _)
      intro _ _ hw
      exact get?_commandWaiters_turned hw
  | waited => exact .of_log rfl fun _ _ hw => hw
  | counted => exact .of_log rfl fun _ _ hw => hw
  | crowned => exact .of_log n.aside_crowned.log fun _ _ hw => hw
  | noted helects hrole hrun =>
      intro i w hw _
      exact ⟨hw, happend hrun i w hw⟩
  | @accepted found index payload j haccepted hrole hrun =>
      subst haccepted
      intro i w hw hfound
      change (n.commandWaiters.insert index _).get? i = some w at hw
      rw [Table.get?_insert] at hw
      split at hw
      · obtain rfl := Option.some.inj hw
        exact absurd (congrArg some hfound) hticket
      · exact ⟨hw, happend hrun i w hw⟩
  | proposed hproposed hrole hpending hchanges hrun =>
      intro i w hw _
      exact ⟨hw, happend hrun i w hw⟩
  | merged htakes => exact .of_idle hn.attentive htakes.not_leader rfl
  | refreshed => exact .of_log rfl fun _ _ hw => hw
  | rebased hadmits => exact .of_idle hn.attentive hadmits.not_leader rfl
  | recorded => exact .of_log rfl fun _ _ hw => hw

theorem Closes.retains (h : Closes event n n') (hn : n.Steady) :
    Retains ticket n n' := by
  cases h with
  | @applied entry =>
      have henacted := enacted_applyEntry n entry (n.standing.lastApplied + 1)
      apply Retains.of_log (congrArg Journal.log henacted.journal)
      intro _ _ hw
      exact get?_commandWaiters_applyEntry hw
  | retired =>
      apply Retains.of_log (log_turned _ _ _)
      intro _ _ hw
      exact get?_commandWaiters_turned hw
  | announced => exact .of_log rfl fun _ _ hw => hw
  | compacted hlong hsaved hrun =>
      intro index w hw _
      have hlater := (hn.attentive.commands.expects index w hw).later
      exact ⟨hw, hn.level.get?_compacted hlong hrun hlater⟩
  | dispatched => exact .of_log rfl fun _ _ hw => hw
  | campaigned => exact .of_log rfl fun _ _ hw => hw
  | answered => exact .of_log rfl fun _ _ hw => hw

/-! ## What a deed confirms -/

/-- The caller has just been told that its command is applied at the index: the
consumer has got it, and the entry there is committed and in the log. -/
structure Confirms (n : Node σ) (before : List Effect) (ticket index term : ℕ)
    (payload : Bytes) : Prop where
  effects : n.effects = before ++ [.answer ticket (.applied index)]
  consumed : .consume index payload ∈ before
  entry : n.log.get? index = some ⟨term, index, .command payload⟩
  committed : index ≤ n.standing.commitIndex

/-- The caller waits at the index for its command, which is in the log. -/
structure Awaits (n : Node σ) (ticket index term : ℕ) (payload : Bytes) :
    Prop where
  waiter : n.commandWaiters.get? index = some ⟨term, ticket⟩
  entry : n.log.get? index = some ⟨term, index, .command payload⟩

omit [Storage σ] in
theorem Retains.awaits (h : Retains ticket n n')
    (hawaits : n'.Awaits ticket index term payload) :
    n.Awaits ticket index term payload := by
  obtain ⟨hw, hlog⟩ := h index _ hawaits.waiter rfl
  exact ⟨hw, hlog ▸ hawaits.entry⟩

/-- A deed tells nobody that a command was applied, or a single caller whose
command is next. -/
theorem Closes.confirms (h : Closes event n n') (hn : n.Steady) :
    (∃ more, n'.effects = n.effects ++ more ∧
      ∀ effect ∈ more, effect.applied? = none) ∨
    ∃ ticket index term payload, n.Awaits ticket index term payload ∧
      n'.Confirms (n.effects ++ [.consume index payload]) ticket index term
        payload := by
  rcases h.applies_or_calm with ⟨entry, hmore, hentry, rfl⟩ | hcalm
  · cases hw : n.commandWaiters.get? (n.standing.lastApplied + 1) with
    | none =>
        obtain ⟨more, heffects, hsays⟩ :=
          effects_applyEntry n entry (n.standing.lastApplied + 1)
        refine Or.inl ⟨more, heffects, fun effect heffect => ?_⟩
        rcases hsays effect heffect with hslight | ⟨_, -, rfl⟩ | ⟨w, hfound, -⟩
        · exact hslight.applied?
        · rfl
        · exact absurd (hw.symm.trans hfound) (by simp)
    | some w =>
        obtain ⟨payload, rfl, heffects⟩ := hn.attentive.effects_applied hentry hw
        have henacted := enacted_applyEntry n
          ⟨w.term, n.standing.lastApplied + 1, .command payload⟩
          (n.standing.lastApplied + 1)
        refine Or.inr ⟨w.ticket, n.standing.lastApplied + 1, w.term, payload,
          ⟨hw, hentry⟩, heffects, ?_, ?_, ?_⟩
        · exact List.mem_append_right _ List.mem_cons_self
        · rw [congrArg Journal.log henacted.journal]
          exact hentry
        · rw [henacted.standing]
          exact hmore
  · exact Or.inl hcalm.effects

/-! ## What an event confirms -/

theorem Opening.retains (h : Opening event n n') (hn : n.Steady)
    (hevent : event.IsHarmless n) (hticket : event.ticket? ≠ some ticket) :
    Retains ticket n n' := by
  have hkept := keeps_of_reflTransGen h (I := fun k =>
    (k.Steady ∧ event.IsHarmless k) ∧ Retains ticket n k) ?_
    ⟨⟨hn, hevent⟩, .refl _ _⟩
  · exact hkept.2
  · rintro a b hstep ⟨⟨ha, hharmless⟩, hretains⟩
    obtain ⟨hlevel, hharmless'⟩ := hstep.level ha.level hharmless
    exact ⟨⟨⟨hlevel, hstep.attentive ha.level ha.attentive⟩, hharmless'⟩,
      hretains.trans (hstep.retains ha hticket)⟩

theorem Closing.retains (h : Closing event n n') (hn : n.Steady) :
    Retains ticket n n' := by
  have hkept := keeps_of_reflTransGen h
    (I := fun k => k.Steady ∧ Retains ticket n k) ?_ ⟨hn, .refl _ _⟩
  · exact hkept.2
  · rintro a b hstep ⟨ha, hretains⟩
    exact ⟨hstep.steady ha, hretains.trans (hstep.retains ha)⟩

theorem Settling.retains (h : Settling event n n') (hn : n.Steady) :
    Retains ticket n n' := by
  obtain ⟨m, hcommitting, hclosing⟩ := h
  cases hcommitting with
  | refl => exact hclosing.retains hn
  | single hstep =>
      refine Retains.trans ?_ (hclosing.retains (hstep.steady hn))
      cases hstep with
      | committed => exact .of_log rfl fun _ _ hw => hw

theorem Opening.untold (h : Opening event n n') (hn : n.Untold) : n'.Untold :=
  keeps_of_reflTransGen h (fun _ _ hstep hm => hm.append hstep.effects) hn

/-- An effect among others is one of the earlier or one of the later ones. -/
theorem split_effects {earlier later : List Effect} {effect : Effect}
    (h : earlier ++ later = before ++ effect :: after) :
    (∃ rest, earlier = before ++ effect :: rest) ∨
      ∃ between, before = earlier ++ between ∧
        later = between ++ effect :: after := by
  rcases List.append_eq_append_iff.mp h with
    ⟨between, hbefore, hlater⟩ | ⟨rest, hearlier, hrest⟩
  · exact Or.inr ⟨between, hbefore, hlater⟩
  · cases rest with
    | nil =>
        refine Or.inr ⟨[], ?_, hrest.symm⟩
        rw [hearlier, List.append_nil, List.append_nil]
    | cons first rest =>
        obtain ⟨rfl, -⟩ := List.cons.inj hrest
        exact Or.inl ⟨rest, hearlier⟩

/-- Whoever is told that a command was applied waited for it when the node began
to settle, and it is told at the deed that applies the command. -/
theorem Closing.confirms (h : Closing event n n') (hn : n.Steady)
    (huntold : n.Untold)
    (heffects : n'.effects = before ++ .answer ticket (.applied index) :: after) :
    ∃ m term payload, Closing event n m ∧ Closing event m n' ∧
      n.Awaits ticket index term payload ∧
      m.Confirms before ticket index term payload := by
  -- on the deeds: the answer was there before the last one, or is given by it
  induction h generalizing after with
  | refl =>
      have hnone := huntold (.answer ticket (.applied index)) (by
        rw [heffects]
        exact List.mem_append_right _ List.mem_cons_self)
      exact absurd hnone (by simp [Effect.applied?])
  | @tail b c hclosing hstep ih =>
      have hb : b.Steady := Closing.steady hclosing hn
      have hearlier : (∃ rest, b.effects =
          before ++ .answer ticket (.applied index) :: rest) →
          ∃ m term payload, Closing event n m ∧ Closing event m c ∧
            n.Awaits ticket index term payload ∧
            m.Confirms before ticket index term payload := by
        rintro ⟨rest, hrest⟩
        obtain ⟨m, term, payload, hm, hm', hawaits, hconfirms⟩ := ih hrest
        exact ⟨m, term, payload, hm, hm'.tail hstep, hawaits, hconfirms⟩
      rcases hstep.confirms hb with
        ⟨more, hmore, hnone⟩ | ⟨found, i, term, payload, hawaits, hconfirms⟩
      · rcases split_effects (hmore.symm.trans heffects) with
          hrest | ⟨between, -, hlater⟩
        · exact hearlier hrest
        · have hanswer := hnone (.answer ticket (.applied index)) (by
            rw [hlater]
            exact List.mem_append_right _ List.mem_cons_self)
          exact absurd hanswer (by simp [Effect.applied?])
      · have htold := hconfirms.effects
        rw [List.append_assoc] at htold
        rcases split_effects (htold.symm.trans heffects) with
          hrest | ⟨between, hbefore, hlater⟩
        · exact hearlier hrest
        · -- of the two effects of the last deed the answer is the second
          have hlast : between = [.consume i payload] ∧ found = ticket ∧
              i = index := by
            cases between with
            | nil => exact absurd hlater (by simp)
            | cons first others =>
                cases others with
                | nil =>
                    simp only [List.cons_append, List.nil_append,
                      List.cons.injEq, Effect.answer.injEq,
                      Answer.applied.injEq] at hlater
                    exact ⟨congrArg (· :: []) hlater.1.symm, hlater.2.1⟩
                | cons second others => exact absurd hlater (by simp)
          obtain ⟨rfl, rfl, rfl⟩ := hlast
          rw [← hbefore] at hconfirms
          exact ⟨c, term, payload, hclosing.tail hstep, .refl,
            (Closing.retains hclosing hn).awaits hawaits, hconfirms⟩

theorem Settling.confirms (h : Settling event n n') (hn : n.Steady)
    (huntold : n.Untold)
    (heffects : n'.effects = before ++ .answer ticket (.applied index) :: after) :
    ∃ m term payload, Settling event n m ∧ Closing event m n' ∧
      n.Awaits ticket index term payload ∧
      m.Confirms before ticket index term payload := by
  obtain ⟨k, hcommitting, hclosing⟩ := h
  have hk : k.Steady ∧ k.Untold ∧ Retains ticket n k := by
    cases hcommitting with
    | refl => exact ⟨hn, huntold, .refl _ _⟩
    | single hstep =>
        refine ⟨hstep.steady hn, ?_⟩
        cases hstep with
        | committed => exact ⟨huntold, .of_log rfl fun _ _ hw => hw⟩
  obtain ⟨hsteady, huntold, hretains⟩ := hk
  obtain ⟨m, term, payload, hm, hm', hawaits, hconfirms⟩ :=
    hclosing.confirms hsteady huntold heffects
  exact ⟨m, term, payload, ⟨k, hcommitting, hm⟩, hm', hretains.awaits hawaits,
    hconfirms⟩

/-- An event takes the node to its end, or to a bad one. -/
def Ends (event : Event) (n n' : Node σ) : Prop :=
  Course event n n' ∨ Halts event n n'

/-- On the way to its end, good or bad, the event takes the node through another
state. -/
def Passes (event : Event) (n m n' : Node σ) : Prop :=
  Course event n m ∧
    (Closing event m n' ∨ ∃ k, Closing event m k ∧ Fails event k n')

/-- At an event of somebody else only those who waited are told that their command
was applied. -/
theorem Course.confirms (h : Course event n n') (hn : n.Steady)
    (hnew : n.effects = []) (hevent : event.IsHarmless n)
    (hticket : event.ticket? ≠ some ticket)
    (heffects : n'.effects = before ++ .answer ticket (.applied index) :: after) :
    ∃ m term payload, Course event n m ∧ Closing event m n' ∧
      n.Awaits ticket index term payload ∧
      m.Confirms before ticket index term payload := by
  obtain ⟨k, hopening, hsettling⟩ := h
  obtain ⟨m, term, payload, hm, hm', hawaits, hconfirms⟩ := hsettling.confirms
    (hopening.steady hn hevent) (hopening.untold (untold_of_new hnew)) heffects
  exact ⟨m, term, payload, ⟨k, hopening, hm⟩, hm',
    (hopening.retains hn hevent hticket).awaits hawaits, hconfirms⟩

theorem Course.retains (h : Course event n n') (hn : n.Steady)
    (hevent : event.IsHarmless n) (hticket : event.ticket? ≠ some ticket) :
    Retains ticket n n' := by
  obtain ⟨m, hopening, hsettling⟩ := h
  exact (hopening.retains hn hevent hticket).trans
    (hsettling.retains (hopening.steady hn hevent))

theorem Ends.dues (h : Ends event n n') (hn : n.Steady)
    (hevent : event.IsHarmless n) (hticket : event.ticket? ≠ some ticket) :
    n'.dues ticket = n.dues ticket := by
  rcases h with hcourse | ⟨m, hcourse, hfails⟩
  · exact hcourse.dues hn hevent hticket
  · exact (hfails.dues ticket).trans (hcourse.dues hn hevent hticket)

theorem Ends.confirms (h : Ends event n n') (hn : n.Steady)
    (hnew : n.effects = []) (hevent : event.IsHarmless n)
    (hticket : event.ticket? ≠ some ticket)
    (heffects : n'.effects = before ++ .answer ticket (.applied index) :: after) :
    ∃ m term payload, Passes event n m n' ∧
      n.Awaits ticket index term payload ∧
      m.Confirms before ticket index term payload := by
  rcases h with hcourse | ⟨k, hcourse, hfails⟩
  · obtain ⟨m, term, payload, hm, hm', hawaits, hconfirms⟩ :=
      hcourse.confirms hn hnew hevent hticket heffects
    exact ⟨m, term, payload, ⟨hm, Or.inl hm'⟩, hawaits, hconfirms⟩
  · obtain ⟨lost, hlost⟩ := hfails.effects
    rw [heffects, List.append_assoc, List.cons_append] at hlost
    obtain ⟨m, term, payload, hm, hm', hawaits, hconfirms⟩ :=
      hcourse.confirms hn hnew hevent hticket hlost.symm
    exact ⟨m, term, payload, ⟨hm, Or.inr ⟨k, hm', hfails⟩⟩, hawaits, hconfirms⟩

/-! ## The event that brings the command -/

/-- What a node does of itself it may do at any event. -/
theorem Closes.of_heartbeat (h : Closes .heartbeat n n') (event : Event) :
    Closes event n n' := by
  cases h with
  | applied hmore hentry => exact .applied hmore hentry
  | retired hrole hself => exact .retired hrole hself
  | announced hdone => exact .announced hdone
  | compacted hlong hsaved hrun => exact .compacted hlong hsaved hrun
  | dispatched hrole hpeer hidle hsends =>
      exact .dispatched hrole hpeer hidle hsends
  | campaigned hevent => exact absurd hevent (by simp)
  | answered hanswers => exact absurd hanswers.ticket? (by simp [Event.ticket?])

theorem Closing.of_heartbeat (h : Closing .heartbeat n n') (event : Event) :
    Closing event n n' :=
  keeps_of_reflTransGen h (I := Closing event n)
    (fun _ _ hstep hm => hm.tail (hstep.of_heartbeat event)) .refl

theorem Settling.of_heartbeat (h : Settling .heartbeat n n')
    (hevent : event.leader? = none) : Settling event n n' := by
  obtain ⟨m, hcommitting, hclosing⟩ := h
  refine ⟨m, ?_, hclosing.of_heartbeat event⟩
  cases hcommitting with
  | refl => exact .refl
  | single hstep =>
      cases hstep with
      | committed _ hrole hmore hterm =>
          exact .single (.committed hevent hrole hmore hterm)

theorem Breaks.of_heartbeat {disk : σ} (h : n.Breaks .heartbeat disk)
    (event : Event) : n.Breaks event disk := by
  cases h with
  | turning hturns =>
      cases hturns with
      | led hleader => exact absurd hleader (by simp [Event.leader?])
      | overtaken hreply => exact absurd hreply (by simp [Event.replyTerm?])
      | stood hevent => exact absurd hevent (by simp)
  | appending hrole hrun => exact .appending hrole hrun
  | merging htakes => exact absurd htakes.event (by simp)
  | receiving hadmits => exact absurd hadmits.event (by simp)
  | rebasing hadmits => exact absurd hadmits.event (by simp)
  | restoring hadmits => exact absurd hadmits.event (by simp)
  | applying hmore hnone => exact .applying hmore hnone
  | measuring hlong hnew hnone => exact .measuring hlong hnew hnone
  | saving hlong hrun => exact .saving hlong hrun
  | compacting hlong hsaved hrun => exact .compacting hlong hsaved hrun
  | sending hrole hpeer hnothing => exact .sending hrole hpeer hnothing

theorem Fails.of_heartbeat (h : Fails .heartbeat n n') (event : Event) :
    Fails event n n' :=
  { h with breaks := h.breaks.of_heartbeat event }

/-- A leader that could append a command does what follows. -/
theorem ensures_accepted (hn : n.Saved) (hrole : n.standing.role = .leader)
    {j : Journal σ} (hrun : Journal.append n.standing.currentTerm
      (.command payload) n.toJournal = .ok index j) (ticket : ℕ) :
    Ensures (handle (.command ticket payload)) n
      (fun _ n' => Settling .heartbeat (n.accepting j index ticket) n')
      fun n' => ∃ m, Settling .heartbeat (n.accepting j index ticket) m ∧
        Fails .heartbeat m n' := by
  unfold handle handleCommand
  rw [Ensures.get_bind_iff]
  apply Ensures.ite
  · intro hfollows
    exact absurd hrole hfollows
  intro _
  apply Ensures.bind
  apply Ensures.onJournal
  · intro i j' hrun'
    obtain ⟨rfl, rfl⟩ : index = i ∧ j = j' := by
      have hsame := hrun.symm.trans hrun'
      injection hsame with hindex hjournal
      exact ⟨hindex, hjournal⟩
    rw [Ensures.modify_bind_iff]
    have hsaved : (n.accepting j index ticket).Saved := hn
    have hspread : Does .heartbeat
        (Settling .heartbeat (n.accepting j index ticket))
        (advanceCommit >>= fun _ => replicateAll) (n.accepting j index ticket)
        fun _ _ => True := does_spread hsaved rfl
    exact Ensures.mono hspread (fun _ _ hm => hm.1) fun _ hfails => hfails
  · intro e j' hrun'
    exact absurd (hrun.symm.trans hrun') (by simp)

end Node

end Consensus
