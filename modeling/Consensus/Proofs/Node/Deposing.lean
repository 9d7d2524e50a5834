import Consensus.Proofs.Merging
import Consensus.Proofs.Node.Feeding
import Consensus.Proofs.Node.Giving

/-!
# Who is told that the leadership is lost

A leader that steps down tells everybody who waits, in the deed by which it does so.
That is when it takes in an event of another term, or in the middle of applying, once
it finds that it is no member any more.  Nobody who is told so has an entry that was
committed when the event came.

The event goes on from there.  In three cases it may commit the entry after all: the
entry by which the leader removes itself was committed together with later ones, the
request of the new leader says that the entry is committed, or the node stands for
election while it leads and is elected by itself alone.
-/

namespace Consensus

/-- The caller is told that the leadership was lost before its entry was committed. -/
def Effect.lost (ticket : ℕ) : Effect := .answer ticket (.refused .leadershipLost)

/-- The entries of a request replace none up to the index, and no snapshot does. -/
def Event.Spares (event : Event) (log : Log) (index : ℕ) : Prop :=
  match event with
  | .appendRequest _ request =>
      ∀ conflict ∈ log.conflicts request.entries, index < conflict
  | .installRequest _ _ => False
  | _ => True

/-- A caller is told that the leadership is lost, and then the consumer gets its
command. -/
def ToldFirst (effects : List Effect) (ticket index : ℕ) (payload : Bytes) : Prop :=
  ∃ before after, effects = before ++ .lost ticket :: after ∧
    .consume index payload ∈ after

namespace Node

variable {σ : Type} {n n' m : Node σ} {event : Event} {ticket index term : ℕ}
  {payload : Bytes}

/-! ## Deeds that end a leadership -/

/-- Somebody waits with the ticket for a command. -/
def Waits (n : Node σ) (ticket : ℕ) : Prop :=
  ∃ index w, n.commandWaiters.get? index = some w ∧ w.ticket = ticket

theorem Waits.role (h : n.Waits ticket) (hn : n.Attentive) :
    n.standing.role = .leader := by
  obtain ⟨index, w, hw, -⟩ := h
  exact (hn.commands.expects index w hw).role

/-- The leader stands elsewhere, and tells those who wait. -/
structure Quits (n : Node σ) (s : Standing) (disk : σ) (ticket : ℕ) : Prop where
  role : n.standing.role = .leader
  left : s.role ≠ .leader
  waits : n.Waits ticket
  told : .lost ticket ∈ (n.turned s disk).effects

/-- Whoever is told so by a node that turns has waited. -/
theorem lost_mem_turned (hn : n.commandWaiters.Distinct) {s : Standing} {disk : σ}
    (hin : .lost ticket ∈ (n.turned s disk).effects) :
    .lost ticket ∈ n.effects ∨ n.Quits s disk ticket := by
  have hturned := hin
  unfold turned afterRoleChange at hin
  split at hin
  · exact Or.inl hin
  · next hlost =>
    obtain ⟨hrole, hleft⟩ := not_or.mp hlost
    have hdismissed := (answer_mem_emit hin).resolve_right fun hsame =>
      Effect.noConfusion hsame
    rcases List.mem_append.mp hdismissed with hbefore | hnow
    · exact Or.inl (answer_mem_stopReplication hbefore)
    rw [List.mem_append, List.mem_map, List.mem_map] at hnow
    rcases hnow with ⟨w, hw, hsame⟩ | ⟨w, -, hsame⟩
    · obtain ⟨index, hindex⟩ := hn.exists_get? hw
      exact Or.inr ⟨not_not.mp hrole, hleft,
        ⟨index, w, hindex, (Effect.answer.inj hsame).1⟩, hturned⟩
    · exact absurd (Effect.answer.inj hsame).2 (by simp)

section

variable [Storage σ]

theorem Opens.tells (h : Opens event n n') (hn : n.Attentive)
    (hin : .lost ticket ∈ n'.effects) :
    .lost ticket ∈ n.effects ∨ ∃ s disk, n.Turns event s ∧ n.Quits s disk ticket ∧
      n' = n.turned s disk := by
  rcases h.answer_mem hin with hbefore | ⟨s, disk, hturns, rfl⟩
  · exact Or.inl hbefore
  · exact (lost_mem_turned hn.commands.distinct hin).imp_right fun hquits =>
      ⟨s, disk, hturns, hquits, rfl⟩

theorem Closes.tells (h : Closes event n n') (hn : n.Attentive)
    (hin : .lost ticket ∈ n'.effects) :
    .lost ticket ∈ n.effects ∨ n.self ∉ n.membership.committed ∧
      n.Quits n.retiring n.disk ticket ∧ n' = n.turned n.retiring n.disk := by
  rcases h.answer_mem hin with hbefore | ⟨entry, hentry, rfl⟩ | ⟨hself, rfl⟩ | hanswers
  · exact Or.inl hbefore
  · rcases answer_mem_applyEntry hin with
      hbefore | ⟨w, hw, -, hanswer⟩ | ⟨w, reply, -, -, hanswer, -⟩
    · exact Or.inl hbefore
    · -- whoever waits at the index waits for the entry that is there
      obtain ⟨found, -, hheld⟩ := (hn.commands.expects _ w hw).entry
      obtain rfl := Option.some.inj (hentry.symm.trans hheld)
      rw [if_pos rfl] at hanswer
      exact Answer.noConfusion hanswer
    · exact Answer.noConfusion hanswer
  · exact (lost_mem_turned hn.commands.distinct hin).imp_right fun hquits =>
      ⟨hself, hquits, rfl⟩
  · exact absurd hanswers (by rintro ⟨⟩)

/-! ## While a leader takes an event in -/

/-- What stays as it is until a leader has left, and in the deed by which it leaves. -/
structure Leads (event : Event) (n m : Node σ) : Prop where
  indices : SameIndices n m
  settings : m.settings = n.settings
  committed : m.membership.committed = n.membership.committed
  log : event.leader? ≠ none → m.log = n.log

omit [Storage σ] in
theorem Leads.refl (event : Event) (n : Node σ) : Leads event n n :=
  ⟨⟨rfl, rfl⟩, rfl, rfl, fun _ => rfl⟩

omit [Storage σ] in
theorem Leads.trans (h : Leads event n m) (h' : Leads event m n') :
    Leads event n n' where
  indices := h.indices.trans h'.indices
  settings := h'.settings.trans h.settings
  committed := h'.committed.trans h.committed
  log hheard := (h'.log hheard).trans (h.log hheard)

/-- A leader neither takes entries over nor a snapshot. -/
theorem Opens.leads (h : Opens event n n') (hrole : n.standing.role = .leader) :
    Leads event n n' := by
  cases h with
  | @turned s disk hturns =>
      have haside := aside_turned n s disk
      obtain ⟨hcommit, happlied⟩ := hturns.indices
      refine ⟨⟨?_, ?_⟩, haside.settings, ?_, fun _ => log_turned _ _ _⟩
      · rw [standing_turned, hcommit]
      · rw [standing_turned, happlied]
      · rw [haside.membership]
  | waited | counted | refreshed | recorded =>
      exact ⟨⟨rfl, rfl⟩, rfl, rfl, fun _ => rfl⟩
  | crowned hcandidate => exact absurd (hrole.symm.trans hcandidate) (by simp)
  | noted helects =>
      exact ⟨⟨rfl, rfl⟩, rfl, rfl, fun hheard => absurd helects.leader? hheard⟩
  | accepted haccepted =>
      subst haccepted
      exact ⟨⟨rfl, rfl⟩, rfl, rfl, fun hheard => absurd rfl hheard⟩
  | proposed hproposed =>
      subst hproposed
      exact ⟨⟨rfl, rfl⟩, rfl, rfl, fun hheard => absurd rfl hheard⟩
  | merged htakes => exact absurd hrole htakes.not_leader
  | rebased hadmits => exact absurd hrole hadmits.not_leader

/-- As long as somebody waits the node leads. -/
theorem Opening.leads (h : Opening event n m) (hn : n.Steady)
    (hevent : event.IsHarmless n) (hticket : event.ticket? ≠ some ticket)
    (hwaits : m.Waits ticket) : Leads event n m := by
  -- on the deeds, backwards: whoever waits after a deed waited before it
  induction h with
  | refl => exact .refl event n
  | @tail b c hbefore hstep ih =>
      have hb := Opening.steady hbefore hn hevent
      obtain ⟨index, w, hw, hfound⟩ := hwaits
      have hwaited : b.Waits ticket :=
        ⟨index, w, (hstep.retains hb hticket index w hw hfound).1, hfound⟩
      exact (ih hwaited).trans (hstep.leads (hwaited.role hb.attentive))

/-! ## How a caller comes to be told -/

/-- The caller waits for its command, and is told that the leadership is lost: as the
leader takes the event in, or in the middle of applying. -/
inductive Deposed (event : Event) (n n' : Node σ) (ticket index term : ℕ)
    (payload : Bytes) : Prop
  | turned {m : Node σ} {s : Standing} {disk : σ} (hbefore : Opening event n m)
      (hleads : Leads event n m) (hturns : m.Turns event s)
      (hdeed : Opens event m (m.turned s disk)) (hquits : m.Quits s disk ticket)
      (hawaits : m.Awaits ticket index term payload)
      (hafter : Course event (m.turned s disk) n')
  | retired {m : Node σ} (hbefore : Course event n m)
      (hself : m.self ∉ m.membership.committed)
      (hquits : m.Quits m.retiring m.disk ticket)
      (hawaits : m.Awaits ticket index term payload)
      (hafter : Closing event (m.turned m.retiring m.disk) n')

theorem Opening.tells (h : Opening event n n') (hn : n.Steady)
    (hevent : event.IsHarmless n) (hin : .lost ticket ∈ n'.effects) :
    .lost ticket ∈ n.effects ∨ ∃ m s disk, Opening event n m ∧ m.Turns event s ∧
      Opens event m (m.turned s disk) ∧ m.Quits s disk ticket ∧
      Opening event (m.turned s disk) n' := by
  induction h with
  | refl => exact Or.inl hin
  | @tail b c hbefore hstep ih =>
      have hb := Opening.steady hbefore hn hevent
      rcases hstep.tells hb.attentive hin with hearlier | ⟨s, disk, hturns, hquits, rfl⟩
      · refine (ih hearlier).imp_right ?_
        rintro ⟨m, s, disk, hm, hturns, hdeed, hquits, hafter⟩
        exact ⟨m, s, disk, hm, hturns, hdeed, hquits, hafter.tail hstep⟩
      · exact Or.inr ⟨b, s, disk, hbefore, hturns, hstep, hquits, .refl⟩

theorem Closing.tells (h : Closing event n n') (hn : n.Steady)
    (hin : .lost ticket ∈ n'.effects) :
    .lost ticket ∈ n.effects ∨ ∃ m, Closing event n m ∧
      m.self ∉ m.membership.committed ∧ m.Quits m.retiring m.disk ticket ∧
      Closing event (m.turned m.retiring m.disk) n' := by
  induction h with
  | refl => exact Or.inl hin
  | @tail b c hbefore hstep ih =>
      have hb := Closing.steady hbefore hn
      rcases hstep.tells hb.attentive hin with hearlier | ⟨hself, hquits, rfl⟩
      · refine (ih hearlier).imp_right ?_
        rintro ⟨m, hm, hself, hquits, hafter⟩
        exact ⟨m, hm, hself, hquits, hafter.tail hstep⟩
      · exact Or.inr ⟨b, hbefore, hself, hquits, .refl⟩

omit [Storage σ] in
/-- Committing changes nothing else. -/
theorem exists_of_committing (h : Relation.ReflGen (Commits event) n n') :
    ∃ index, n' = n.mapStanding fun s => { s with commitIndex := index } := by
  cases h with
  | refl => exact ⟨n.standing.commitIndex, rfl⟩
  | single hstep =>
      cases hstep with
      | committed => exact ⟨n.majorityIndex, rfl⟩

/-- Whoever is told so once the event is taken in is told so in the middle of
applying. -/
theorem Settling.tells (h : Settling event n n') (hn : n.Steady)
    (hin : .lost ticket ∈ n'.effects) :
    .lost ticket ∈ n.effects ∨ ∃ m, Settling event n m ∧
      m.self ∉ m.membership.committed ∧ m.Quits m.retiring m.disk ticket ∧
      Closing event (m.turned m.retiring m.disk) n' := by
  obtain ⟨k, hcommitting, hclosing⟩ := h
  have hk : k.Steady := Settling.steady ⟨k, hcommitting, .refl⟩ hn
  obtain ⟨index, rfl⟩ := exists_of_committing hcommitting
  refine (hclosing.tells hk hin).imp_right ?_
  rintro ⟨m, hm, hself, hquits, hafter⟩
  exact ⟨m, ⟨_, hcommitting, hm⟩, hself, hquits, hafter⟩

end

end Node

end Consensus
