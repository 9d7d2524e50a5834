import Consensus.Proofs.Node.Bounding
import Consensus.Proofs.Node.Deposing

/-!
# What a node commits after its leadership

A caller is told that the leadership was lost, and the event goes on.  A node that
follows commits nothing by itself, and what a snapshot covers it does not apply entry by
entry.  So the entry can only be committed by one of three ways, and whatever is
committed by then is applied before the event ends well.
-/

namespace Consensus

theorem Event.spares_of_leader? {event : Event} (h : event.leader? = none) (log : Log)
    (index : ℕ) : event.Spares log index := by
  cases event with
  | appendRequest | installRequest => exact absurd h (by simp [Event.leader?])
  | _ => trivial

namespace Node

variable {σ : Type} {n n' m : Node σ} {event : Event} {ticket index term : ℕ}
  {payload : Bytes}

theorem mem_calls_iff {call : ℕ × Bytes} :
    call ∈ n.calls ↔ .consume call.1 call.2 ∈ n.effects := by
  unfold calls
  rw [List.mem_filterMap]
  constructor
  · rintro ⟨effect, heffect, hcall⟩
    cases effect with
    | consume => exact Option.some.inj hcall ▸ heffect
    | _ => exact absurd hcall (by simp [Effect.call?])
  · intro hin
    exact ⟨_, hin, rfl⟩

variable [Storage σ]

/-! ## What is applied -/

/-- A deed applies the next entry, or gives the consumer nothing. -/
theorem Closes.calls_cases (h : Closes event n n') (hn : n.Level) :
    (n'.standing.lastApplied = n.standing.lastApplied ∧ n'.calls = n.calls) ∨
      ∃ entry, n.log.get? (n.standing.lastApplied + 1) = some entry ∧
        n'.standing.lastApplied = n.standing.lastApplied + 1 ∧
        n'.calls = n.calls ++ entry.call?.toList := by
  cases h with
  | @applied entry hmore hentry =>
      have hindex := (hn.gapless.range_of_get? hentry).2.2
      refine Or.inr ⟨entry, hentry, ?_, (consumes_applyEntry n hindex).1⟩
      rw [(enacted_applyEntry n entry _).standing]
  | retired =>
      refine Or.inl ⟨?_, (aside_turned n n.retiring n.disk).calls⟩
      rw [standing_turned, retiring_eq]
  | compacted => exact Or.inl ⟨rfl, rfl⟩
  | campaigned =>
      refine Or.inl ⟨rfl, calls_append rfl fun effect heffect => ?_⟩
      obtain ⟨peer, -, rfl⟩ := List.mem_map.mp heffect
      rfl
  | announced | dispatched | answered =>
      refine Or.inl ⟨rfl, calls_append rfl fun effect heffect => ?_⟩
      rw [List.mem_singleton.mp heffect]
      rfl

/-- Nothing that is not applied leaves the log. -/
theorem Closes.get?_later (h : Closes event n n') (hn : n.Level)
    (hlt : n.standing.lastApplied < index) : n'.log.get? index = n.log.get? index := by
  rcases h.journal_or_compacts with hsame | ⟨term, disk, hlong, -, hrun⟩
  · rw [congrArg Journal.log hsame]
  · exact hn.get?_compacted hlong hrun hlt

/-- What a node gives its consumer from one state to a later one. -/
structure Gave (n n' : Node σ) (given : List (ℕ × Bytes)) : Prop where
  level : n'.Level
  le : n.standing.lastApplied ≤ n'.standing.lastApplied
  calls : n'.calls = n.calls ++ given
  within : ∀ call ∈ given, n.standing.lastApplied < call.1 ∧
    call.1 ≤ n'.standing.lastApplied
  applied : ∀ index term payload, n.standing.lastApplied < index →
    n.log.get? index = some ⟨term, index, .command payload⟩ →
      index ≤ n'.standing.lastApplied → (index, payload) ∈ given
  later : ∀ index, n'.standing.lastApplied < index →
    n'.log.get? index = n.log.get? index

omit [Storage σ] in
theorem Gave.nothing (hn : n.Level) : Gave n n [] where
  level := hn
  le := le_rfl
  calls := (List.append_nil _).symm
  within _ hcall := absurd hcall List.not_mem_nil
  applied _ _ _ hlt _ hle := absurd hle hlt.not_ge
  later _ _ := rfl

theorem Gave.step {given : List (ℕ × Bytes)} (h : Gave n m given)
    (hstep : Closes event m n') : ∃ given, Gave n n' given := by
  have hlevel := hstep.level h.level
  have hlater : ∀ i, m.standing.lastApplied < i → n'.log.get? i = n.log.get? i :=
    fun i hlt => (hstep.get?_later h.level hlt).trans (h.later i hlt)
  rcases hstep.calls_cases h.level with
    ⟨happlied, hcalls⟩ | ⟨entry, hentry, happlied, hcalls⟩
  · refine ⟨given, hlevel, ?_, hcalls.trans h.calls, ?_, ?_, ?_⟩
    · rw [happlied]
      exact h.le
    · rw [happlied]
      exact h.within
    · rw [happlied]
      exact h.applied
    · rw [happlied]
      exact hlater
  · have hle := h.le
    have hindex := (h.level.gapless.range_of_get? hentry).2.2
    refine ⟨given ++ entry.call?.toList, hlevel, by omega, ?_, ?_, ?_, ?_⟩
    · rw [hcalls, h.calls, List.append_assoc]
    · intro call hcall
      rcases List.mem_append.mp hcall with hin | hin
      · have hwithin := h.within call hin
        omega
      · have hcalled := (Entry.call?_eq_some (Option.mem_toList.mp hin)).1
        omega
    · intro i term payload hlt hheld hreached
      rcases Nat.lt_or_ge m.standing.lastApplied i with hnew | hold
      · -- the entry is the one that this deed applies
        obtain rfl : i = m.standing.lastApplied + 1 := by omega
        rw [← h.later _ hnew, hentry] at hheld
        obtain rfl := Option.some.inj hheld
        exact List.mem_append_right _ (List.mem_singleton.mpr rfl)
      · exact List.mem_append_left _ (h.applied i term payload hlt hheld hold)
    · intro i hlt
      exact hlater i (by omega)

/-- All that comes to be applied is given to the consumer, and nothing else. -/
theorem Closing.gave (h : Closing event n n') (hn : n.Level) :
    ∃ given, Gave n n' given :=
  keeps_of_reflTransGen h (I := fun m => ∃ given, Gave n m given)
    (fun _ _ hstep ⟨_, hgave⟩ => hgave.step hstep) ⟨[], .nothing hn⟩

/-! ## What is committed -/

theorem Closing.commitIndex (h : Closing event n n') :
    n'.standing.commitIndex = n.standing.commitIndex :=
  keeps_of_reflTransGen h
    (I := fun m => m.standing.commitIndex = n.standing.commitIndex)
    (fun _ _ hstep hm => hstep.commitIndex_eq.trans hm) rfl

omit [Storage σ] in
/-- Whoever turns follows, keeps its role, or stands for election. -/
theorem Turns.role_cases {s : Standing} (h : n.Turns event s) :
    s.role = .follower ∨ s.role = n.standing.role ∨
      s = n.standing.becomeCandidate n.self ∧ (event = .campaign ∨
        event = .electionTimeout ∧ n.standing.role ≠ .leader) := by
  cases h with
  | asked ticket request =>
      obtain ⟨vote, heq⟩ := answerVote_eq n.standing n.log request
      rw [heq]
      exact (role_observeTerm_cases n.standing request.term).symm.imp_right Or.inl
  | led hleader hterm => exact Or.inl (role_following (le_observeTerm _ _) _)
  | overtaken hreply hterm => exact Or.inl (role_becomeFollower _ _)
  | stood hevent hself => exact Or.inr (Or.inr ⟨rfl, hevent⟩)

/-- A follower that hears of no leader commits nothing. -/
theorem Course.commitIndex_of_follower (h : Course event n n')
    (hrole : n.standing.role = .follower) (hheard : event.leader? = none)
    (hstands : event ≠ .campaign ∧ event ≠ .electionTimeout) :
    n'.standing.commitIndex = n.standing.commitIndex := by
  have hkept := h.keeps (I := fun m => m.standing.role = .follower ∧
    m.standing.commitIndex = n.standing.commitIndex) ?_ ?_ ?_ ⟨hrole, rfl⟩
  · exact hkept.2
  · rintro a b hstep ⟨ha, hcommit⟩
    cases hstep with
    | @turned s disk hturns =>
        rw [standing_turned, hturns.indices.1]
        refine ⟨?_, hcommit⟩
        rcases hturns.role_cases with hrole | hrole | ⟨-, hevent | ⟨hevent, -⟩⟩
        · exact hrole
        · exact hrole.trans ha
        · exact absurd hevent hstands.1
        · exact absurd hevent hstands.2
    | counted _ hcandidate | crowned hcandidate =>
        exact absurd (ha.symm.trans hcandidate) (by simp)
    | noted _ hleads | accepted _ hleads | proposed _ hleads | recorded _ hleads =>
        exact absurd (ha.symm.trans hleads) (by simp)
    | merged htakes =>
        obtain ⟨_, rfl⟩ := htakes.event
        exact absurd hheard (by simp [Event.leader?])
    | rebased hadmits =>
        obtain ⟨_, rfl⟩ := hadmits.event
        exact absurd hheard (by simp [Event.leader?])
    | waited | refreshed => exact ⟨ha, hcommit⟩
  · rintro a b hstep ⟨ha, -⟩
    cases hstep with
    | committed _ hleads => exact absurd (ha.symm.trans hleads) (by simp)
  · rintro a b hstep ⟨ha, hcommit⟩
    refine ⟨?_, hstep.commitIndex_eq.trans hcommit⟩
    cases hstep with
    | @applied entry =>
        rw [(enacted_applyEntry a entry _).standing]
        exact ha
    | retired hleads => exact absurd (ha.symm.trans hleads) (by simp)
    | announced | compacted | dispatched | campaigned | answered => exact ha

/-- A node on its way to be elected by itself. -/
structure Stands (n m : Node σ) : Prop where
  self : m.self = n.self
  committed : m.membership.committed = n.membership.committed
  commitIndex : m.standing.commitIndex = n.standing.commitIndex
  votes : m.standing.role = .candidate → m.standing.votes = (∅ : NodeSet).insert n.self
  leads : m.standing.role = .leader →
    n.membership.committed.hasQuorum ((∅ : NodeSet).insert n.self) = true

theorem Stands.opens (h : Stands n m) (hstep : Opens .campaign m n') : Stands n n' := by
  cases hstep with
  | @turned s disk hturns =>
      have haside := aside_turned m s disk
      refine ⟨haside.self.trans h.self, ?_, ?_, ?_, ?_⟩
      · rw [haside.membership]
        exact h.committed
      · rw [standing_turned, hturns.indices.1]
        exact h.commitIndex
      all_goals rw [standing_turned]
      all_goals cases hturns with
      | led hleader => exact absurd hleader (by simp [Event.leader?])
      | overtaken hreply => exact absurd hreply (by simp [Event.replyTerm?])
      | stood => ?_
      · intro _
        change (∅ : NodeSet).insert m.self = _
        rw [h.self]
      · exact fun hleads => absurd hleads (by simp [Standing.becomeCandidate])
  | crowned hcandidate hquorum =>
      have haside := m.aside_crowned
      refine ⟨haside.self.trans h.self, ?_, ?_, ?_, fun _ => ?_⟩
      · rw [haside.membership]
        exact h.committed
      · rw [standing_crowned]
        exact h.commitIndex
      · rw [standing_crowned]
        exact fun hrole => absurd hrole (by simp [Standing.becomeLeader])
      · rw [h.committed, h.votes hcandidate] at hquorum
        exact hquorum
  | waited | noted | refreshed =>
      exact ⟨h.self, h.committed, h.commitIndex, h.votes, h.leads⟩
  | counted hevent | accepted hevent | proposed hevent | recorded hevent =>
      exact absurd hevent (by simp)
  | merged htakes => exact absurd htakes.event (by simp)
  | rebased hadmits => exact absurd hadmits.event (by simp)

/-- A node that is asked to stand for election commits something only if its own vote
is enough. -/
theorem Course.sole_of_campaign (h : Course .campaign n n')
    (hrole : n.standing.role = .candidate)
    (hvotes : n.standing.votes = (∅ : NodeSet).insert n.self) :
    n'.standing.commitIndex = n.standing.commitIndex ∨
      n.membership.committed.hasQuorum ((∅ : NodeSet).insert n.self) = true := by
  obtain ⟨m, hopening, k, hcommitting, hclosing⟩ := h
  have hstart : Stands n n := ⟨rfl, rfl, rfl, fun _ => hvotes, fun hleads =>
    absurd (hrole.symm.trans hleads) (by simp)⟩
  have hm : Stands n m :=
    keeps_of_reflTransGen hopening (fun _ _ hstep ha => ha.opens hstep) hstart
  rw [Closing.commitIndex hclosing]
  cases hcommitting with
  | refl => exact Or.inl hm.commitIndex
  | single hstep =>
      cases hstep with
      | committed _ hleads => exact Or.inr (hm.leads hleads)

/-- A request of a leader makes a node commit no more than the leader has committed. -/
theorem Course.commitIndex_le_of_append {request : AppendRequest}
    (h : Course (.appendRequest ticket request) n n') :
    n'.standing.commitIndex ≤ max n.standing.commitIndex request.leaderCommit := by
  refine h.keeps (I := fun m => m.standing.commitIndex ≤
    max n.standing.commitIndex request.leaderCommit) ?_ ?_ ?_ (Nat.le_max_left _ _)
  · intro a b hstep ha
    rcases hstep.indices with ⟨hsame, -⟩ | ⟨found, reach, htakes, hmore, -⟩ |
      ⟨_, hadmits, -⟩
    · exact hsame.trans_le ha
    · obtain ⟨_, hevent⟩ := htakes.event
      obtain ⟨-, rfl⟩ := Event.appendRequest.inj hevent
      omega
    · exact absurd hadmits.event (by simp)
  · rintro a b ⟨hheard, -⟩
    exact absurd hheard (by simp [Event.leader?])
  · intro a b hstep ha
    rw [hstep.commitIndex_eq]
    exact ha

/-! ## What stays in the log -/

/-- The entry is there and not replaced by what is still to be taken in. -/
structure Shelters (event : Event) (index : ℕ) (entry : Entry) (n m : Node σ) : Prop where
  level : m.Level
  harmless : event.IsHarmless m
  spares : event.Spares m.log index
  lastApplied : m.standing.lastApplied = n.standing.lastApplied
  held : m.log.get? index = some entry

theorem Shelters.opens {entry : Entry} (h : Shelters event index entry n m)
    (hstep : Opens event m n') : Shelters event index entry n n' := by
  obtain ⟨hlevel, hharmless⟩ := hstep.level h.level h.harmless
  have hsame : n'.log = m.log →
      n'.standing.lastApplied = m.standing.lastApplied →
      Shelters event index entry n n' := fun hlog happlied =>
    ⟨hlevel, hharmless, hlog ▸ h.spares, happlied.trans h.lastApplied, hlog ▸ h.held⟩
  have hpush : ∀ {payload : Payload} {i : ℕ} {j : Journal σ}, event.leader? = none →
      Journal.append m.standing.currentTerm payload m.toJournal = .ok i j →
      n'.log = j.log → n'.standing.lastApplied = m.standing.lastApplied →
      Shelters event index entry n n' := fun hheard hrun hlog happlied =>
    ⟨hlevel, hharmless, Event.spares_of_leader? hheard _ _,
      happlied.trans h.lastApplied, hlog ▸ h.level.get?_appended hrun h.held⟩
  cases hstep with
  | turned hturns =>
      refine hsame (log_turned _ _ _) ?_
      rw [standing_turned, hturns.indices.2]
  | crowned =>
      refine hsame m.aside_crowned.log ?_
      rw [standing_crowned]
      rfl
  | noted helects _ hrun => exact hpush helects.leader? hrun rfl rfl
  | accepted haccepted _ hrun =>
      subst haccepted
      exact hpush rfl hrun rfl rfl
  | proposed hproposed _ _ _ hrun =>
      subst hproposed
      exact hpush rfl hrun rfl rfl
  | @merged request reach j htakes hrun =>
      obtain ⟨kept, early, fresh, hmeets, -⟩ := h.level.exists_meets htakes h.harmless
      obtain ⟨_, rfl⟩ := htakes.event
      obtain ⟨-, hlog⟩ := Journal.log_appendFromLeader h.level.gapless hmeets hrun
      have htaken := hmeets.takesOver_splice h.level.gapless
      have hlast := (h.level.gapless.range_of_get? h.held).2.1
      refine ⟨hlevel, hharmless, ?_, h.lastApplied, ?_⟩
      · have hnone : j.log.conflicts request.entries = ∅ := by
          rw [hlog]
          exact hmeets.conflicts_splice h.level.gapless
        exact fun conflict hconflict =>
          absurd (hnone ▸ hconflict) (Set.notMem_empty conflict)
      · change j.log.get? index = _
        rw [hlog, htaken.kept index hlast h.spares]
        exact h.held
  | rebased hadmits =>
      obtain ⟨_, rfl⟩ := hadmits.event
      exact h.spares.elim
  | waited | counted | refreshed | recorded => exact hsame rfl rfl

theorem Opening.shelters {entry : Entry} (h : Opening event n m) (hn : n.Level)
    (hevent : event.IsHarmless n) (hspares : event.Spares n.log index)
    (hheld : n.log.get? index = some entry) : Shelters event index entry n m :=
  keeps_of_reflTransGen h (fun _ _ hstep hm => hm.opens hstep)
    ⟨hn, hevent, hspares, rfl, hheld⟩

/-! ## Callers who are told that the leadership is lost -/

/-- How an event may commit an entry whose caller is told that the leadership is
lost. -/
inductive Belies (event : Event) (n n' : Node σ) (index : ℕ) : Prop
  /-- In the middle of applying what is committed, the entry included, the leader has
  ceased to be a member. -/
  | removed {m : Node σ} (hbefore : Course event n m) (hafter : Closing event m n')
      (hrole : m.standing.role = .leader) (hself : m.self ∉ m.membership.committed)
      (hlater : m.standing.lastApplied < index)
      (hcommit : index ≤ m.standing.commitIndex)
  /-- Another leader says that the entry is committed. -/
  | overtaken {ticket : ℕ} {request : AppendRequest}
      (hevent : event = .appendRequest ticket request)
      (hcommit : index ≤ request.leaderCommit)
  /-- The leader stands for election again, and its own vote is enough. -/
  | reelected (hevent : event = .campaign)
      (hsole : n.membership.committed.hasQuorum ((∅ : NodeSet).insert n.self) = true)

/-- The event does not commit the entry, unless a snapshot covers it, and does not apply
it. -/
structure Forgoes (event : Event) (n n' : Node σ) (index : ℕ) : Prop where
  uncommitted : n'.standing.commitIndex < index ∨
    n.standing.commitIndex < index ∧
      ∃ ticket request, event = .installRequest ticket request
  unapplied : ∀ payload, .consume index payload ∉ n'.effects

/-- What is not committed is not applied. -/
theorem Course.unapplied (h : Course event n n') (hn : n.Level) (hnew : n.effects = [])
    (hevent : event.IsHarmless n) (hlt : n'.standing.commitIndex < index) :
    ∀ payload, .consume index payload ∉ n'.effects := by
  intro payload hin
  have hcall : (index, payload) ∈ n'.calls := mem_calls_iff.mpr hin
  have hlevel := h.level hn hevent
  obtain ⟨m, hopening, k, hcommitting, hclosing⟩ := h
  have hsettles : Settling event m k := ⟨k, hcommitting, .refl⟩
  have hk : k.Level := hsettles.level (hopening.level hn hevent).1
  have hnone : k.calls = [] := by
    obtain ⟨_, rfl⟩ := exists_of_committing hcommitting
    change m.calls = []
    rw [hopening.calls, calls, hnew]
    rfl
  obtain ⟨given, hgave⟩ := Closing.gave hclosing hk
  rw [hgave.calls, hnone, List.nil_append] at hcall
  have hwithin := (hgave.within _ hcall).2
  have happlied := hlevel.applied_le
  omega

/-- A snapshot makes a node apply nothing. -/
theorem Course.unapplied_of_install {request : InstallRequest}
    (h : Course (.installRequest ticket request) n n') (hn : n.Level)
    (hidle : n.Idle) (hnew : n.effects = []) :
    ∀ payload, .consume index payload ∉ n'.effects := by
  have happlied := le_antisymm hn.applied_le hidle
  have hnone := h.keeps_of_install (I := fun m => m.Level ∧ m.calls = []) happlied
    (fun a b hstep ha => ?_) (fun a b hstep hcalm ha => ?_) ⟨hn, ?_⟩
  · intro payload hin
    have hcall : (index, payload) ∈ n'.calls := mem_calls_iff.mpr hin
    rw [hnone.2] at hcall
    exact List.not_mem_nil hcall
  · have hcalls := Opening.calls (.single hstep)
    exact ⟨(hstep.level ha.1 trivial).1, hcalls.trans ha.2⟩
  · refine ⟨hstep.level ha.1, ?_⟩
    rcases hstep.calls_cases ha.1 with ⟨-, hcalls⟩ | ⟨entry, -, hmore, -⟩
    · exact hcalls.trans ha.2
    · exact absurd (hcalm.lastApplied.symm.trans hmore) (by omega)
  · rw [calls, hnew]
    rfl

theorem Deposed.course (h : Deposed event n n' ticket index term payload) :
    Course event n n' := by
  cases h with
  | turned hbefore _ _ hdeed _ _ hafter =>
      exact Opening.then_course (hbefore.tail hdeed) hafter
  | retired hbefore hself hquits _ hafter =>
      exact hbefore.closing (.head (.retired hquits.role hself) hafter)

omit [Storage σ] in
/-- A leader that leaves follows, unless it is asked to stand for election. -/
theorem Turns.role_of_quits {s : Standing} {disk : σ} (h : n.Turns event s)
    (hquits : n.Quits s disk ticket) (hevent : event ≠ .campaign) :
    s.role = .follower := by
  rcases h.role_cases with hfollows | hsame | ⟨-, hstands | ⟨-, hrole⟩⟩
  · exact hfollows
  · exact absurd (hsame.trans hquits.role) hquits.left
  · exact absurd hstands hevent
  · exact absurd hquits.role hrole

/-- What a leader commits after it has left as it took the event in. -/
theorem Deposed.cases_of_turned {s : Standing} {disk : σ} (hleads : Leads event n m)
    (hturns : m.Turns event s) (hquits : m.Quits s disk ticket)
    (hafter : Course event (m.turned s disk) n')
    (hlt : n.standing.commitIndex < index) (hle : index ≤ n'.standing.commitIndex) :
    Belies event n n' index ∨ ∃ ticket request, event = .installRequest ticket request := by
  have hcommit : (m.turned s disk).standing.commitIndex = n.standing.commitIndex := by
    rw [standing_turned, hturns.indices.1, hleads.indices.commit]
  by_cases hcampaign : event = .campaign
  · subst hcampaign
    have hstands : s = m.standing.becomeCandidate m.self := by
      cases hturns with
      | led hleader => exact absurd hleader (by simp [Event.leader?])
      | overtaken hreply => exact absurd hreply (by simp [Event.replyTerm?])
      | stood => rfl
    have hself : (m.turned s disk).self = n.self :=
      (self_turned m s disk).trans (congrArg Settings.nodeId hleads.settings)
    have hvotes : (m.turned s disk).standing.votes =
        (∅ : NodeSet).insert (m.turned s disk).self := by
      rw [self_turned, standing_turned, hstands]
      rfl
    have hrole : (m.turned s disk).standing.role = .candidate := by
      rw [standing_turned, hstands]
      rfl
    rcases hafter.sole_of_campaign hrole hvotes with hsame | hsole
    · omega
    · rw [(aside_turned m s disk).membership, hleads.committed, hself] at hsole
      exact Or.inl (.reelected rfl hsole)
  have hfollows := hturns.role_of_quits hquits hcampaign
  rw [← standing_turned m s disk] at hfollows
  cases event with
  | appendRequest ticket request =>
      have hbound := hafter.commitIndex_le_of_append
      exact Or.inl (.overtaken rfl (by omega))
  | installRequest ticket request => exact Or.inr ⟨ticket, request, rfl⟩
  | campaign => exact absurd rfl hcampaign
  | electionTimeout =>
      -- the election timer of a leader is not running
      cases hturns with
      | led hleader => exact absurd hleader (by simp [Event.leader?])
      | overtaken hreply => exact absurd hreply (by simp [Event.replyTerm?])
      | stood hevent =>
          exact absurd hquits.role (hevent.resolve_left (by simp)).2
  | _ =>
      have hsame := hafter.commitIndex_of_follower hfollows rfl (by simp)
      omega

/-- A caller who is told that the leadership is lost has an entry that the event does
not commit, or commits in one of three ways. -/
theorem Deposed.forgoes_or_belies (h : Deposed event n n' ticket index term payload)
    (hn : n.Steady) (hnew : n.effects = []) (hidle : n.Idle)
    (hevent : event.IsHarmless n) :
    Forgoes event n n' index ∨
      index ≤ n'.standing.commitIndex ∧ Belies event n n' index := by
  have hcourse := h.course
  rcases lt_or_ge n'.standing.commitIndex index with hlt | hle
  · exact Or.inl ⟨Or.inl hlt, hcourse.unapplied hn.level hnew hevent hlt⟩
  cases h with
  | @turned m s disk hbefore hleads hturns hdeed hquits hawaits hafter =>
      have hm : m.Steady := Opening.steady hbefore hn hevent
      have hlater := (hm.attentive.commands.expects index _ hawaits.waiter).later
      have happlied := hleads.indices.applied
      have hbelow : n.standing.commitIndex < index := by
        unfold Idle at hidle
        omega
      rcases Deposed.cases_of_turned hleads hturns hquits hafter hbelow hle with
        hbelies | ⟨ticket, request, rfl⟩
      · exact Or.inr ⟨hle, hbelies⟩
      · exact Or.inl ⟨Or.inr ⟨hbelow, ticket, request, rfl⟩,
          hcourse.unapplied_of_install hn.level hidle hnew⟩
  | @retired m hbefore hself hquits hawaits hafter =>
      have hm : m.Steady := hbefore.steady hn hevent
      have hlater := (hm.attentive.commands.expects index _ hawaits.waiter).later
      have hrest : Closing event m n' := .head (.retired hquits.role hself) hafter
      refine Or.inr ⟨hle, .removed hbefore hrest hquits.role hself hlater ?_⟩
      rw [← hrest.commitIndex]
      exact hle

/-! ## First told, then applied -/

theorem Closes.effects_prefix (h : Closes event n n') : n.effects <+: n'.effects := by
  rcases h.applies_or_calm with ⟨entry, -, -, rfl⟩ | hcalm
  · obtain ⟨more, hmore, -⟩ := effects_applyEntry n entry (n.standing.lastApplied + 1)
    exact ⟨more, hmore.symm⟩
  · obtain ⟨more, hmore, -⟩ := hcalm.effects
    exact ⟨more, hmore.symm⟩

theorem Course.effects_prefix (h : Course event n n') : n.effects <+: n'.effects := by
  refine h.keeps (I := fun m => n.effects <+: m.effects) ?_ ?_ ?_ (List.prefix_refl _)
  · intro a b hstep ha
    obtain ⟨more, hmore, -⟩ := hstep.effects
    exact ha.trans ⟨more, hmore.symm⟩
  · rintro a b ⟨⟩ ha
    exact ha
  · exact fun a b hstep ha => ha.trans hstep.effects_prefix

omit [Storage σ] in
/-- The consumer gets the command later than the caller is told. -/
theorem toldFirst_of_calls {given : List (ℕ × Bytes)} (htold : .lost ticket ∈ n.effects)
    (hgrows : n.effects <+: n'.effects) (hcalls : n'.calls = n.calls ++ given)
    (hgiven : (index, payload) ∈ given) : ToldFirst n'.effects ticket index payload := by
  obtain ⟨before, rest, hbefore⟩ := List.append_of_mem htold
  obtain ⟨more, hmore⟩ := hgrows
  have hrest : more.filterMap Effect.call? = given := by
    have hsplit : n.calls ++ more.filterMap Effect.call? = n.calls ++ given := by
      rw [← hcalls, calls, calls, ← List.filterMap_append, hmore]
    exact List.append_cancel_left hsplit
  rw [← hrest, List.mem_filterMap] at hgiven
  obtain ⟨effect, heffect, hcall⟩ := hgiven
  refine ⟨before, rest ++ more, ?_, List.mem_append_right _ ?_⟩
  · rw [← hmore, hbefore, List.append_assoc, List.cons_append]
  · cases effect with
    | consume =>
        obtain ⟨rfl, rfl⟩ := Prod.mk.inj (Option.some.inj hcall)
        exact heffect
    | _ => exact absurd hcall (by simp [Effect.call?])

theorem Closing.toldFirst (h : Closing event n n') (hn : n.Level)
    (htold : .lost ticket ∈ n.effects) (hlater : n.standing.lastApplied < index)
    (hheld : n.log.get? index = some ⟨term, index, .command payload⟩)
    (happlied : index ≤ n'.standing.lastApplied) :
    ToldFirst n'.effects ticket index payload := by
  obtain ⟨given, hgave⟩ := Closing.gave h hn
  exact toldFirst_of_calls htold h.settling.course.effects_prefix hgave.calls
    (hgave.applied index term payload hlater hheld happlied)

/-- An entry that stays in the log and is committed by the end is applied after its
caller was told that the leadership is lost. -/
theorem Deposed.toldFirst (h : Deposed event n n' ticket index term payload)
    (hn : n.Steady) (hevent : event.IsHarmless n) (hspares : event.Spares n.log index)
    (hidle : n'.Idle) (hcommit : index ≤ n'.standing.commitIndex) :
    ToldFirst n'.effects ticket index payload := by
  have hreached : index ≤ n'.standing.lastApplied := hcommit.trans hidle
  cases h with
  | @turned m s disk hbefore hleads hturns hdeed hquits hawaits hafter =>
      have hm : m.Steady := Opening.steady hbefore hn hevent
      have hlater := (hm.attentive.commands.expects index _ hawaits.waiter).later
      obtain ⟨hlevel, hharmless⟩ := Opening.level (hbefore.tail hdeed) hn.level hevent
      have hheld : (m.turned s disk).log.get? index = _ :=
        (log_turned m s disk).symm ▸ hawaits.entry
      have hspared : event.Spares (m.turned s disk).log index := by
        by_cases hheard : event.leader? = none
        · exact Event.spares_of_leader? hheard _ _
        · rw [log_turned, hleads.log hheard]
          exact hspares
      obtain ⟨x, hopening, k, hcommitting, hclosing⟩ := hafter
      have hx := Opening.shelters hopening hlevel hharmless hspared hheld
      have happlied := hx.lastApplied
      rw [standing_turned, hturns.indices.2] at happlied
      have htold : .lost ticket ∈ x.effects :=
        hopening.course.effects_prefix.subset hquits.told
      have hk := Settling.level ⟨k, hcommitting, .refl⟩ hx.level
      obtain ⟨_, rfl⟩ := exists_of_committing hcommitting
      exact Closing.toldFirst hclosing hk htold (happlied ▸ hlater) hx.held hreached
  | @retired m hbefore hself hquits hawaits hafter =>
      have hm : m.Steady := hbefore.steady hn hevent
      have hlater := (hm.attentive.commands.expects index _ hawaits.waiter).later
      have hretired : Closes event m (m.turned m.retiring m.disk) :=
        .retired hquits.role hself
      have happlied : (m.turned m.retiring m.disk).standing.lastApplied =
          m.standing.lastApplied := by
        rw [standing_turned, retiring_eq]
      have hheld : (m.turned m.retiring m.disk).log.get? index = _ :=
        (log_turned m m.retiring m.disk).symm ▸ hawaits.entry
      exact Closing.toldFirst hafter (hretired.level hm.level) hquits.told
        (happlied ▸ hlater) hheld hreached

end Node

end Consensus
