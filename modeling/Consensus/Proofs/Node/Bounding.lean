import Consensus.Proofs.JournalLog
import Consensus.Proofs.Node.Waiting

/-!
# How much one event commits

A node that hears from a leader commits no more than that leader had committed, and
an append request says of its sender no more than this.  Everybody else finds by
itself what is committed, and then at most one new membership is among it: the one
that was pending, or one that came while none was.
-/

namespace Consensus

/-- How far the sender of a request had committed its log. -/
def Event.known : Event → ℕ
  | .appendRequest _ request => request.leaderCommit
  | .installRequest _ request => request.lastIncludedIndex
  | _ => 0

/-- How far a node says in an append request that it has committed its log. -/
def Effect.claims : Effect → ℕ
  | .dispatch _ (.appendEntries request) _ => request.leaderCommit
  | _ => 0

theorem Effect.IsSlight.claims {effect : Effect} (h : effect.IsSlight) :
    effect.claims = 0 := by
  cases effect with
  | dispatch => exact h.elim
  | _ => rfl

namespace Log

variable {log : Log} {base : ℕ}

theorem changes_push_le (log : Log) (base : ℕ) (entry : Entry) :
    changes ((log.push entry).entriesAfter base) ≤
      changes (log.entriesAfter base) + changes [entry] := by
  change changes ((log.entries ++ [entry]).filter _) ≤ _
  rw [List.filter_append, changes_append]
  exact Nat.add_le_add_left (changes_le_of_sublist List.filter_sublist) _

theorem changes_dropThrough_le (log : Log) (base index term : ℕ) :
    changes ((log.dropThrough index term).entriesAfter base) ≤
      changes (log.entriesAfter base) :=
  changes_le_of_sublist ((List.drop_sublist _ _).filter _)

end Log

namespace Node

variable {σ : Type} [Storage σ] {n n' : Node σ} {event : Event} {base bound : ℕ}

/-! ## What a leader makes others commit -/

/-- Told by a leader, a node commits no more than the leader had. -/
theorem Course.commitIndex_le (h : Course event n n')
    (hleader : event.leader?.isSome = true)
    (hle : n.standing.lastApplied ≤ n.standing.commitIndex) :
    n'.standing.lastApplied ≤ n'.standing.commitIndex ∧
      n'.standing.commitIndex ≤ max n.standing.commitIndex event.known := by
  refine h.keeps (I := fun m => m.standing.lastApplied ≤ m.standing.commitIndex ∧
    m.standing.commitIndex ≤ max n.standing.commitIndex event.known) ?_ ?_ ?_
    ⟨hle, le_max_left _ _⟩
  · rintro a b hstep ⟨happlied, hcommit⟩
    rcases hstep.indices with ⟨hsame, hlast⟩ | ⟨request, reach, htakes, hmore, hlast⟩ |
      ⟨request, hadmits, hmore, hlast⟩
    · rw [hsame, hlast]
      exact ⟨happlied, hcommit⟩
    · obtain ⟨ticket, rfl⟩ := htakes.event
      change a.standing.commitIndex ≤
        max n.standing.commitIndex request.leaderCommit at hcommit
      change _ ∧ b.standing.commitIndex ≤
        max n.standing.commitIndex request.leaderCommit
      omega
    · obtain ⟨ticket, rfl⟩ := hadmits.event
      change a.standing.commitIndex ≤
        max n.standing.commitIndex request.lastIncludedIndex at hcommit
      change _ ∧ b.standing.commitIndex ≤
        max n.standing.commitIndex request.lastIncludedIndex
      omega
  · rintro a b hstep -
    cases hstep with
    | committed hnone => simp [hnone] at hleader
  · rintro a b hstep ⟨happlied, hcommit⟩
    rcases hstep.applies_or_calm with ⟨entry, hmore, -, rfl⟩ | hcalm
    · rw [(enacted_applyEntry a entry _).standing]
      exact ⟨hmore, hcommit⟩
    · rw [hcalm.commitIndex, hcalm.lastApplied]
      exact ⟨happlied, hcommit⟩

/-! ## What a leader says that it has committed -/

/-- No append request says that more is committed. -/
def Claims (bound : ℕ) (n : Node σ) : Prop :=
  ∀ effect ∈ n.effects, effect.claims ≤ bound

omit [Storage σ] in
theorem claims_of_new (h : n.effects = []) (bound : ℕ) : n.Claims bound := by
  intro effect heffect
  rw [h] at heffect
  exact absurd heffect List.not_mem_nil

omit [Storage σ] in
theorem Claims.mono {bound' : ℕ} (h : n.Claims bound) (hle : bound ≤ bound') :
    n.Claims bound' :=
  fun effect heffect => (h effect heffect).trans hle

omit [Storage σ] in
theorem Claims.append (h : n.Claims bound) (hmore : ∃ more,
      n'.effects = n.effects ++ more ∧ ∀ effect ∈ more, effect.claims ≤ bound) :
    n'.Claims bound := by
  obtain ⟨more, heffects, hclaims⟩ := hmore
  intro effect heffect
  rw [heffects, List.mem_append] at heffect
  exact heffect.elim (h effect) (hclaims effect)

theorem Opens.claims (h : Opens event n n') (hn : n.Claims bound) :
    n'.Claims bound := by
  obtain ⟨more, heffects, hslight⟩ := h.effects
  refine hn.append ⟨more, heffects, fun effect heffect => ?_⟩
  rw [(hslight effect heffect).claims]
  exact Nat.zero_le _

/-- Only a leader sends entries, and says how far it has committed them. -/
theorem Closes.claims (h : Closes event n n') (hn : n.Claims bound)
    (hbound : n.standing.role = .leader → n.standing.commitIndex ≤ bound) :
    n'.Claims bound := by
  -- most deeds send no entries
  have hsilent : (∃ more, n'.effects = n.effects ++ more ∧
      ∀ effect ∈ more, effect.claims = 0) → n'.Claims bound := by
    rintro ⟨more, heffects, hnone⟩
    exact hn.append ⟨more, heffects, fun effect heffect =>
      (hnone effect heffect).trans_le (Nat.zero_le _)⟩
  cases h with
  | @applied entry hmore hentry =>
      obtain ⟨more, heffects, hsays⟩ :=
        effects_applyEntry n entry (n.standing.lastApplied + 1)
      refine hsilent ⟨more, heffects, fun effect heffect => ?_⟩
      rcases hsays effect heffect with hslight | ⟨_, _, rfl⟩ | ⟨_, _, _, rfl⟩
      · exact hslight.claims
      · rfl
      · rfl
  | retired =>
      obtain ⟨more, heffects, hslight⟩ := (aside_turned n n.retiring n.disk).effects
      exact hsilent ⟨more, heffects, fun effect heffect =>
        (hslight effect heffect).claims⟩
  | announced => exact hsilent ⟨[_], rfl, by simp [Effect.claims]⟩
  | compacted => exact hn
  | @dispatched peer progress request kind hrole hpeer hidle hsends =>
      refine hn.append ⟨[_], rfl, fun effect heffect => ?_⟩
      rw [List.mem_singleton.mp heffect]
      cases hsends with
      | snapshot => exact Nat.zero_le _
      | entries => exact hbound hrole
  | campaigned =>
      refine hsilent ⟨_, rfl, fun effect heffect => ?_⟩
      obtain ⟨peer, -, rfl⟩ := List.mem_map.mp heffect
      rfl
  | answered => exact hsilent ⟨[_], rfl, by simp [Effect.claims]⟩

theorem Opens.commitIndex_le (h : Opens event n n') :
    n.standing.commitIndex ≤ n'.standing.commitIndex := by
  rcases h.indices with ⟨hcommit, -⟩ | ⟨_, _, -, hcommit, -⟩ | ⟨_, -, hcommit, -⟩
  · exact hcommit.ge
  · exact hcommit ▸ le_max_left _ _
  · exact hcommit ▸ le_max_left _ _

theorem Closes.commitIndex_eq (h : Closes event n n') :
    n'.standing.commitIndex = n.standing.commitIndex := by
  rcases h.applies_or_calm with ⟨entry, -, -, rfl⟩ | hcalm
  · rw [(enacted_applyEntry n entry _).standing]
  · exact hcalm.commitIndex

/-- A node says no more than that it has committed what it has. -/
theorem Course.claims (h : Course event n n') (hnew : n.effects = []) :
    n'.Claims n'.standing.commitIndex := by
  refine h.keeps (I := fun m => m.Claims m.standing.commitIndex) ?_ ?_ ?_
    (claims_of_new hnew _)
  · intro a b hstep ha
    exact (hstep.claims ha).mono hstep.commitIndex_le
  · intro a b hstep ha
    cases hstep with
    | committed hnone hrole hmore => exact Claims.mono ha hmore.le
  · intro a b hstep ha
    rw [hstep.commitIndex_eq]
    exact hstep.claims ha fun _ => le_rfl

/-- Told by a leader, a node that leads itself has committed nothing new. -/
theorem Course.claims_of_leader (h : Course event n n') (hnew : n.effects = [])
    (hleader : event.leader?.isSome = true) : n'.Claims n.standing.commitIndex := by
  refine (h.keeps (I := fun m => m.Claims n.standing.commitIndex ∧
    (m.standing.role ≠ .follower →
      m.standing.commitIndex = n.standing.commitIndex)) ?_ ?_ ?_
    ⟨claims_of_new hnew _, fun _ => rfl⟩).1
  · rintro a b hstep ⟨hclaims, hsame⟩
    refine ⟨hstep.claims hclaims, ?_⟩
    cases hstep with
    | turned hturns =>
        rw [standing_turned, hturns.indices.1]
        cases hturns with
        | asked => simp [Event.leader?] at hleader
        | led _ hterm =>
            exact fun hrole => absurd (role_following (le_observeTerm _ _) _) hrole
        | overtaken hreply =>
            cases event with
            | appendRequest => exact absurd hreply (by simp [Event.replyTerm?])
            | installRequest => exact absurd hreply (by simp [Event.replyTerm?])
            | _ => simp [Event.leader?] at hleader
        | stood hevent =>
            rcases hevent with rfl | ⟨rfl, -⟩
            · simp [Event.leader?] at hleader
            · simp [Event.leader?] at hleader
    | crowned hrole =>
        rw [standing_crowned]
        exact fun _ => hsame (by rw [hrole]; simp)
    | merged htakes => exact fun hrole => absurd htakes.role hrole
    | rebased hadmits => exact fun hrole => absurd hadmits.role hrole
    | _ => exact hsame
  · rintro a b hstep -
    cases hstep with
    | committed hnone => simp [hnone] at hleader
  · rintro a b hstep ⟨hclaims, hsame⟩
    refine ⟨hstep.claims hclaims fun hrole => (hsame (by rw [hrole]; simp)).le, ?_⟩
    rw [hstep.commitIndex_eq]
    cases hstep with
    | @applied entry =>
        rw [(enacted_applyEntry a entry _).standing]
        exact hsame
    | retired hrole => exact fun _ => hsame (by rw [hrole]; simp)
    | _ => exact hsame

/-! ## One membership at a time -/

/-- After the index there is at most one membership in the log, and none unless one
is pending. -/
structure Restrained (base : ℕ) (n : Node σ) : Prop where
  changes_le : changes (n.log.entriesAfter base) ≤ 1
  changes_eq : n.membership.pending.isSome = false →
    changes (n.log.entriesAfter base) = 0

omit [Storage σ] in
theorem Restrained.of_same (h : n.Restrained base) (hlog : n'.log = n.log)
    (hmembership : n'.membership = n.membership) : n'.Restrained base := by
  constructor
  · rw [hlog]
    exact h.changes_le
  · rw [hlog, hmembership]
    exact h.changes_eq

/-- An entry that carries no membership may always be appended. -/
theorem Restrained.appended (h : n.Restrained base) {term index : ℕ}
    {payload : Payload} {j : Journal σ}
    (hrun : Journal.append term payload n.toJournal = .ok index j)
    (hpayload : Entry.config? ⟨term, index, payload⟩ = none)
    (hlog : n'.log = j.log) (hmembership : n'.membership = n.membership) :
    n'.Restrained base := by
  have hle := Log.changes_push_le n.log base ⟨term, index, payload⟩
  rw [changes_single, hpayload] at hle
  have hsame : n'.log = n.log.push ⟨term, index, payload⟩ :=
    hlog.trans (Journal.log_append hrun).2
  constructor
  · rw [hsame]
    exact hle.trans h.changes_le
  · rw [hsame, hmembership]
    exact fun hnone => Nat.le_zero.mp (hle.trans (h.changes_eq hnone).le)

theorem Opens.restrained (h : Opens event n n') (hn : n.Restrained base)
    (hevent : event.leader? = none) : n'.Restrained base := by
  cases h with
  | turned => exact hn.of_same (log_turned _ _ _) (aside_turned _ _ _).membership
  | crowned =>
      exact hn.of_same n.aside_crowned.log n.aside_crowned.membership
  | noted helects hrole hrun => exact hn.appended hrun rfl rfl rfl
  | accepted haccepted hrole hrun => exact hn.appended hrun rfl rfl rfl
  | @proposed ticket index change j hproposed hrole hpending hchanges hrun =>
      have hnone := hn.changes_eq hpending
      have hle := Log.changes_push_le n.log base ⟨n.standing.currentTerm, index,
        .config (n.membership.committed.withChange change)⟩
      rw [hnone, Nat.zero_add, changes_single] at hle
      constructor
      · change changes (j.log.entriesAfter base) ≤ 1
        rw [(Journal.log_append hrun).2]
        exact hle
      · exact fun hfree => Bool.noConfusion hfree
  | merged htakes =>
      obtain ⟨ticket, rfl⟩ := htakes.event
      exact absurd hevent (by simp [Event.leader?])
  | refreshed happends =>
      rw [happends] at hevent
      exact absurd hevent (by simp [Event.leader?])
  | rebased hadmits =>
      obtain ⟨ticket, rfl⟩ := hadmits.event
      exact absurd hevent (by simp [Event.leader?])
  | _ => exact hn.of_same rfl rfl

theorem Closes.changes_le (h : Closes event n n')
    (hn : changes (n.log.entriesAfter base) ≤ 1) :
    changes (n'.log.entriesAfter base) ≤ 1 := by
  rcases h.journal_or_compacts with hsame | ⟨term, disk, hlong, -, hrun⟩
  · rw [congrArg Journal.log hsame]
    exact hn
  · have hlog : n'.log = n.log.dropThrough n.standing.lastApplied term :=
      Journal.log_compactTo (j := ⟨n.log, disk⟩) hlong.new hrun
    rw [hlog]
    exact (Log.changes_dropThrough_le _ _ _ _).trans hn

/-- A node that is not told by a leader adds no membership to one that is not
applied yet. -/
theorem Course.changes_le (h : Course event n n') (hevent : event.leader? = none)
    (hn : n.Restrained base) : changes (n'.log.entriesAfter base) ≤ 1 := by
  obtain ⟨m, hopening, k, hcommitting, hclosing⟩ := h
  have hm : m.Restrained base := keeps_of_reflTransGen hopening
    (fun _ _ hstep ha => hstep.restrained ha hevent) hn
  refine keeps_of_reflTransGen hclosing
    (I := fun m => changes (m.log.entriesAfter base) ≤ 1)
    (fun _ _ hstep => hstep.changes_le) ?_
  cases hcommitting with
  | refl => exact hm.changes_le
  | single hstep =>
      cases hstep with
      | committed => exact hm.changes_le

end Node

end Consensus
