import Consensus.Proofs.Node.Bounding
import Consensus.Proofs.World.Agreement
import Consensus.Proofs.World.Submission

/-!
# The membership of a cluster

At every moment the cluster has the members that the last membership names which any
node has applied, or those that it started with if there is none.

Whoever applies an index first of all was not told so: what a leader tells others to
commit it has applied itself.  So it is a leader that finds by itself what is
committed, and then it applies one new membership at most.  Hence every membership
that is ever applied is the cluster's at the moment when it is first applied.
-/

namespace Consensus

variable {S : Scope} {id index : ℕ} {event : Event} {origin : Option Origin}
  {n n' : Node Memory} {e e' : Entry} {members : NodeSet}

/-- A membership beyond another one counts. -/
theorem two_le_changes {entries : List Entry} {p q base : ℕ}
    (hp : entries[p]? = some e) (hq : entries[q]? = some e')
    (he : e.config?.isSome = true) (he' : e'.config?.isSome = true) (hlt : p < q)
    (hbase : base ≤ p) : 2 ≤ changes (entries.drop base) := by
  obtain ⟨hlength, rfl⟩ := List.getElem?_eq_some_iff.mp hp
  have hlater : e' ∈ entries.drop (p + 1) := by
    refine List.mem_iff_getElem?.mpr ⟨q - (p + 1), ?_⟩
    rw [List.getElem?_drop, Nat.add_sub_cancel' hlt]
    exact hq
  have hone : 0 < changes (entries.drop (p + 1)) :=
    List.countP_pos_iff.mpr ⟨e', hlater, he'⟩
  calc 2 ≤ changes (entries.drop (p + 1)) + 1 := by omega
    _ = changes (entries.drop p) := by
      rw [List.drop_eq_getElem_cons hlength, changes, changes]
      exact (List.countP_cons_of_pos
        (p := fun entry : Entry => entry.config?.isSome) he).symm
    _ ≤ changes (entries.drop base) := changes_drop_le hbase

/-- The members after the entries are those of the last membership among them, or
those from before. -/
theorem membersAfter_cases (base : NodeSet) (entries : List Entry) :
    membersAfter base entries = base ∧ (∀ e ∈ entries, Entry.config? e = none) ∨
      ∃ (p : ℕ) (e : Entry), entries[p]? = some e ∧
        e.config? = some (membersAfter base entries) ∧
        ∀ (q : ℕ) (e' : Entry), entries[q]? = some e' → e'.config?.isSome = true →
          q ≤ p := by
  induction entries using List.reverseRecOn with
  | nil => exact Or.inl ⟨rfl, by simp⟩
  | append_singleton entries last ih =>
      rw [membersAfter_append_single]
      cases hlast : last.config? with
      | some members =>
          refine Or.inr ⟨entries.length, last, by simp, hlast, fun q e' hq _ => ?_⟩
          have hlt := (List.getElem?_eq_some_iff.mp hq).1
          rw [List.length_append, List.length_singleton] at hlt
          omega
      | none =>
          rcases ih with ⟨hsame, hnone⟩ | ⟨p, e, hp, hconfig, hmost⟩
          · refine Or.inl ⟨hsame, fun e he => ?_⟩
            rcases List.mem_append.mp he with hbefore | hin
            · exact hnone e hbefore
            · rw [List.mem_singleton.mp hin]
              exact hlast
          · refine Or.inr ⟨p, e, ?_, hconfig, fun q e' hq hsome => ?_⟩
            · rw [List.getElem?_append_left (List.getElem?_eq_some_iff.mp hp).1]
              exact hp
            · rcases Ledger.getElem?_append_single_cases hq with ⟨-, hbefore⟩ | ⟨-, rfl⟩
              · exact hmost q e' hbefore hsome
              · rw [hlast] at hsome
                exact absurd hsome (by simp)

/-- A packet with an append request says what its sender claims. -/
theorem Effect.claims_of_packet? {effect : Effect} {asker asked : ℕ} {memo : Memo}
    {request : AppendRequest}
    (h : effect.packet? id origin =
      some (.request asker asked memo (.appendEntries request))) :
    asker = id ∧ effect.claims = request.leaderCommit := by
  cases effect with
  | dispatch peer sent batch =>
      obtain ⟨rfl, -, -, rfl⟩ := Packet.request.inj (Option.some.inj h)
      exact ⟨rfl, rfl⟩
  | requestVote peer sent =>
      obtain ⟨-, -, -, hrequest⟩ := Packet.request.inj (Option.some.inj h)
      exact absurd hrequest (by simp)
  | answer ticket answer =>
      cases origin with
      | none => exact absurd h (by simp [Effect.packet?])
      | some asked => exact absurd h (by simp [Effect.packet?])
  | _ => exact absurd h (by simp [Effect.packet?])

namespace Run

variable {r : Run S} {ledger : ℕ → Ledger} {j k : ℕ}

/-- Up to the moment nobody has applied anything at the index. -/
def Unapplied (r : Run S) (k index : ℕ) : Prop := ∀ id e, ¬ r.Applied k id index e

/-- The cluster has the members at the moment. -/
inductive Constitutes (r : Run S) (k : ℕ) : NodeSet → Prop
  /-- Nobody has applied a membership yet. -/
  | initial (hnone : ∀ id index e, r.Applied k id index e → e.config? = none) :
      Constitutes r k S.members
  /-- Of all that anybody has applied it is the last membership. -/
  | applied {id index : ℕ} {e : Entry} {members : NodeSet}
      (happlied : r.Applied k id index e) (hconfig : e.config? = some members)
      (hlast : ∀ other later e', r.Applied k other later e' →
        e'.config?.isSome = true → later ≤ index) :
      Constitutes r k members

theorem not_applied_zero : ¬ r.Applied 0 id index e := by
  intro h
  cases h

/-! ## What is known to be applied -/

/-- A node that applies an entry at an event has come as far after it. -/
theorem Account.reaches (h : r.Account ledger)
    (haction : r.action k = .event id event origin) (hup : r.Up k id n)
    (happlies : n.Applies event index e) :
    ∃ n', Node.handle event n = .ok () n' ∧ r.Up (k + 1) id n'.drained ∧
      index ≤ n'.standing.lastApplied := by
  obtain ⟨threshold, m, hrun, -, hle, -⟩ := happlies
  obtain ⟨commit, hadvances⟩ := (h.accounts k).advances _ _ _ _ haction hup
  obtain ⟨hrests, hcalm, -⟩ := (hadvances.handled threshold).ok hrun
  obtain ⟨n', hrun', hafter⟩ := h.handles haction hup hcalm
  obtain ⟨hrests', -⟩ := (hadvances.handled _).ok hrun'
  refine ⟨n', hrun', hafter, ?_⟩
  calc index ≤ m.standing.lastApplied := hle
    _ = commit := hrests.settled.applied.trans hrests.commit
    _ = n'.standing.lastApplied :=
        (hrests'.settled.applied.trans hrests'.commit).symm

/-- Whoever has applied an entry was up then and had come as far. -/
theorem Account.exists_up_of_applied (h : r.Account ledger)
    (happlied : r.Applied k id index e) :
    ∃ j ≤ k, ∃ n, r.Up j id n ∧ index ≤ n.standing.lastApplied := by
  induction happlied with
  | kept _ ih =>
      obtain ⟨j, hle, hfound⟩ := ih
      exact ⟨j, hle.trans (Nat.le_succ _), hfound⟩
  | applied haction hup happlies =>
      obtain ⟨n', -, hafter, hle⟩ := h.reaches haction hup happlies
      exact ⟨_, le_rfl, _, hafter, hle⟩
  | installed haction hup hafter hlt hle hreached =>
      exact ⟨_, le_rfl, _, hafter, hle.trans hreached⟩

/-- Whoever has applied an index has applied all before it. -/
theorem Account.appliedUpTo_of_applied (h : r.Account ledger)
    (happlied : r.Applied k id index e) : r.AppliedUpTo k id index := by
  intro before hpos hle
  obtain ⟨j, hjk, n, hup, hindex⟩ := h.exists_up_of_applied happlied
  obtain ⟨found, hfound⟩ := h.exists_applied hup hpos (hle.trans hindex)
  exact ⟨found, hfound.mono hjk⟩

/-- Every node has applied what it says in an append request that it has committed. -/
theorem Account.claimed (h : r.Account ledger) (k : ℕ) :
    ∀ asker asked memo request,
      .request asker asked memo (.appendEntries request) ∈ (r.world k).sent →
        r.AppliedUpTo k asker request.leaderCommit := by
  induction k with
  | zero =>
      intro _ _ _ _ hin
      rw [r.initial.sent] at hin
      exact absurd hin List.not_mem_nil
  | succ k ih =>
      intro asker asked memo request hin
      have hstep := r.step k
      generalize haction : r.action k = action at hstep
      generalize hworld : r.world (k + 1) = w' at hstep hin
      cases hstep with
      | @handled id event origin n n' hup harrives hrun =>
          rcases List.mem_append.mp hin with hold | hnew
          · exact (ih _ _ _ _ hold).kept
          obtain ⟨effect, heffect, hsends⟩ := List.mem_filterMap.mp hnew
          obtain ⟨rfl, hclaims⟩ := Effect.claims_of_packet? hsends
          obtain ⟨commit, hadvances⟩ := (h.accounts k).advances _ _ _ _ haction hup
          have hsettled := ((hadvances.handled _).ok hrun).1.settled
          have hcourse := (Node.handle_runs (h.ready hup).settled.persisted event).ok hrun
          have hle := hcourse.claims (h.attending k _ n hup).1 effect heffect
          have hcommit : n'.standing.lastApplied = n'.standing.commitIndex :=
            hsettled.applied
          have hplace := (h.covered (k + 1)).place asker
          rw [hworld, World.place_after_self] at hplace
          refine hplace.of_le ?_
          change request.leaderCommit ≤ n'.standing.lastApplied
          omega
      | @failed id event origin n n' error hup harrives hrun =>
          rcases List.mem_append.mp hin with hold | hnew
          · exact (ih _ _ _ _ hold).kept
          obtain ⟨effect, heffect, hsends⟩ := List.mem_filterMap.mp hnew
          obtain ⟨rfl, hclaims⟩ := Effect.claims_of_packet? hsends
          obtain ⟨ticket, install, m, rfl, hcourse, hfails⟩ :=
            h.installs_of_error haction hup hrun
          have hle := hcourse.claims_of_leader (h.attending k _ n hup).1 rfl
            effect (hfails.effects.subset heffect)
          have hplace := (h.covered k).place asker
          rw [hup] at hplace
          refine (hplace.of_le ?_).kept
          change request.leaderCommit ≤ n.standing.lastApplied
          have hcommit := (h.ready hup).settled.applied
          omega
      | stopped | started | refused | idle => exact (ih _ _ _ _ hin).kept

theorem arrives_of_event (haction : r.action k = .event id event origin) :
    (r.world k).Arrives S id event origin := by
  have hstep := r.step k
  rw [haction] at hstep
  generalize r.world (k + 1) = w' at hstep
  cases hstep with
  | handled _ harrives => exact harrives
  | failed _ harrives => exact harrives

/-- What a leader tells a node to commit, some node has applied. -/
theorem Account.exists_known (h : r.Account ledger)
    (haction : r.action k = .event id event origin)
    (hleader : event.leader?.isSome = true) :
    ∃ asker, r.AppliedUpTo k asker event.known := by
  cases arrives_of_event haction with
  | @request asker _ memo request _ _ hsent hevent =>
      cases request with
      | appendEntries request =>
          obtain ⟨-, rfl⟩ := Prod.mk.inj (Option.some.inj hevent)
          exact ⟨asker, h.claimed k _ _ _ _ hsent⟩
      | installSnapshot request =>
          obtain ⟨-, rfl⟩ := Prod.mk.inj (Option.some.inj hevent)
          exact ⟨asker, (h.covered k).sent _ _ _ _ hsent⟩
      | whoIsTheLeader => exact absurd hevent (by simp [Request.event?])
      | _ =>
          obtain ⟨-, rfl⟩ := Prod.mk.inj (Option.some.inj hevent)
          exact absurd hleader (by simp [Event.leader?])
  | _ => exact absurd hleader (by simp [Event.leader?])

/-! ## Who applies first -/

/-- Whoever is the first to apply at an index was not told so by a leader. -/
theorem Account.first_applied (h : r.Account ledger) (hnone : r.Unapplied k index)
    (happlied : r.Applied (k + 1) id index e) :
    ∃ event origin n, r.action k = .event id event origin ∧ r.Up k id n ∧
      event.leader? = none ∧ n.Applies event index e := by
  cases happlied with
  | kept happlied => exact absurd happlied (hnone _ _)
  | installed _ _ _ _ _ _ hasker => exact absurd hasker (hnone _ _)
  | @applied _ _ _ event origin n _ haction hup happlies =>
      refine ⟨event, origin, n, haction, hup, ?_, happlies⟩
      obtain ⟨threshold, m, hrun, hlt, hle, -⟩ := happlies
      by_contra hsome
      have hleader : event.leader?.isSome = true := Option.isSome_iff_ne_none.mpr hsome
      have hsettled := (h.ready hup).settled
      have hsaved : (n.withThreshold threshold).Saved := hsettled.persisted
      have hcourse := (Node.handle_runs hsaved event).ok hrun
      have hbound := hcourse.commitIndex_le hleader hsettled.applied.le
      have hcommit : (n.withThreshold threshold).standing.commitIndex =
          n.standing.lastApplied := hsettled.applied.symm
      obtain ⟨asker, hknown⟩ := h.exists_known haction hleader
      obtain ⟨found, hfound⟩ := hknown index (by omega) (by omega)
      exact hnone asker found hfound

/-- After an event that does not come from a leader the whole log of the node has at
most one membership beyond what was applied before. -/
theorem Account.changes_le (h : r.Account ledger)
    (haction : r.action k = .event id event origin) (hup : r.Up k id n)
    (hleader : event.leader? = none) (hrun : Node.handle event n = .ok () n') :
    changes (((ledger (k + 1)).log id).drop n.standing.lastApplied) ≤ 1 := by
  have hready := h.ready hup
  have hview := hready.tracks.journal.log.entriesAfter_eq ((h.accounted k).numbered id)
    hready.tracks.boundary_le
  have hrestrained : ∀ threshold,
      (n.withThreshold threshold).Restrained n.standing.lastApplied := by
    intro threshold
    constructor
    · change changes (n.log.entriesAfter _) ≤ 1
      rw [hview, hready.settled.applied]
      exact hready.tracks.pending
    · intro hfree
      change changes (n.log.entriesAfter _) = 0
      rw [hview]
      refine List.countP_eq_zero.mpr fun entry hentry hsome => ?_
      obtain ⟨change, hchange, -⟩ := hready.tracks.noticed entry hentry hsome
      have hfree : n.membership.pending.isSome = false := hfree
      rw [hchange] at hfree
      exact Bool.noConfusion hfree
  -- with enough room the log shows all of it
  obtain ⟨commit, hadvances⟩ := (h.accounts k).advances _ _ _ _ haction hup
  obtain ⟨threshold, m, hrun', -, hready', hstart⟩ := hadvances.uncompacted hrun
  have hboundary : m.log.snapshotIndex ≤ n.standing.lastApplied := by
    rw [hstart]
    cases event with
    | installRequest => exact absurd hleader (by simp [Event.leader?])
    | _ => exact hready.tracks.boundary_le
  have hshown : m.log.entriesAfter n.standing.lastApplied = _ :=
    hready'.tracks.journal.log.entriesAfter_eq ((h.accounted (k + 1)).numbered id)
      hboundary
  rw [← hshown]
  have hsaved : (n.withThreshold threshold).Saved := hready.settled.persisted
  exact ((Node.handle_runs hsaved event).ok hrun').changes_le hleader
    (hrestrained threshold)

/-- When a membership is applied first, no later one has been. -/
theorem Account.last_of_first (h : r.Account ledger) (hnone : r.Unapplied k index)
    (happlied : r.Applied (k + 1) id index e) (hconfig : e.config?.isSome = true)
    {other later : ℕ} (hlater : r.Applied (k + 1) other later e')
    (hconfig' : e'.config?.isSome = true) : later ≤ index := by
  by_contra hlt
  have hpos : 0 < index := by
    obtain ⟨-, -, -, hpos, -⟩ := h.settledAt happlied
    exact hpos
  -- whoever applies the later one applies this one too, both at the same event
  obtain ⟨found, hfound⟩ := h.appliedUpTo_of_applied hlater index hpos (by omega)
  obtain rfl : found = e := h.applied_unique hfound happlied
  have hnone' : r.Unapplied k later := by
    intro x f hf
    obtain ⟨g, hg⟩ := h.appliedUpTo_of_applied hf index hpos (by omega)
    exact hnone x g hg
  obtain ⟨event, origin, n, haction, hup, hleader, happlies⟩ :=
    h.first_applied hnone hfound
  obtain ⟨_, _, _, haction', hup', -, happlies'⟩ := h.first_applied hnone' hlater
  obtain ⟨-, rfl, rfl⟩ := Action.event.inj (haction.symm.trans haction')
  obtain rfl := Place.up.inj (hup.symm.trans hup')
  obtain ⟨n', hrun, hafter, hle⟩ := h.reaches haction hup happlies
  obtain ⟨m, hrun', -, hle'⟩ := h.reaches haction hup happlies'
  obtain rfl : n' = m := by
    cases hrun.symm.trans hrun'
    rfl
  have hone := h.changes_le haction hup hleader hrun
  have hget := (h.applied_iff hafter hpos hle).mp hfound
  have hget' := (h.applied_iff hafter (by omega) hle').mp hlater
  obtain ⟨-, -, -, hfresh, -⟩ := happlies
  have htwo := two_le_changes hget hget' hconfig hconfig' (by omega)
    (show n.standing.lastApplied ≤ index - 1 by omega)
  omega

/-! ## Memberships of the cluster -/

theorem Unapplied.of_le (h : r.Unapplied k index) (hle : j ≤ k) : r.Unapplied j index :=
  fun id e happlied => h id e (happlied.mono hle)

/-- Every membership that is applied is the cluster's when it is first applied. -/
theorem Account.exists_constitutes (h : r.Account ledger)
    (happlied : r.Applied k id index e) (hconfig : e.config? = some members) :
    ∃ j ≤ k, ¬ r.Unapplied j index ∧ r.Constitutes j members := by
  classical
  have hsome : ∃ j, ¬ r.Unapplied j index := ⟨k, fun hnone => hnone id e happlied⟩
  have hfirst := Nat.find_spec hsome
  have hle : Nat.find hsome ≤ k := Nat.find_min' hsome fun hnone => hnone id e happlied
  refine ⟨Nat.find hsome, hle, hfirst, ?_⟩
  have hbefore : ∀ j < Nat.find hsome, r.Unapplied j index :=
    fun j hlt => not_not.mp (Nat.find_min hsome hlt)
  generalize Nat.find hsome = first at hfirst hbefore
  cases first with
  | zero => exact absurd (fun _ _ => not_applied_zero) hfirst
  | succ j =>
      have hnone := hbefore j (Nat.lt_succ_self j)
      have hfound : ∃ x f, r.Applied (j + 1) x index f := by
        by_contra hnobody
        exact hfirst fun x f hf => hnobody ⟨x, f, hf⟩
      obtain ⟨x, f, hf⟩ := hfound
      obtain rfl : f = e := h.applied_unique hf happlied
      exact .applied hf hconfig fun _ _ _ hlater hsome =>
        h.last_of_first hnone hf (Option.isSome_of_eq_some hconfig) hlater hsome

/-- A leader has the members that the last membership names which it has applied. -/
theorem Account.committed_cases (h : r.Account ledger) (hup : r.Up k id n)
    (hrole : n.standing.role = .leader) :
    (n.membership.committed = S.members ∧ ∀ index e, r.Applied k id index e →
        index ≤ n.standing.lastApplied → e.config? = none) ∨
      ∃ index e, r.Applied k id index e ∧ e.config? = some n.membership.committed ∧
        ∀ later e', r.Applied k id later e' → later ≤ n.standing.lastApplied →
          e'.config?.isSome = true → later ≤ index := by
  have htracks := (h.ready hup).tracks
  rw [(htracks.leader hrole).exact]
  -- what the leader has applied is the first part of its log
  have hget : ∀ {index : ℕ} {e : Entry}, r.Applied k id index e →
      index ≤ n.standing.lastApplied → 0 < index ∧
        (((ledger k).log id).take n.standing.lastApplied)[index - 1]? = some e := by
    intro index e happlied hle
    obtain ⟨-, -, -, hpos, -⟩ := h.settledAt happlied
    refine ⟨hpos, ?_⟩
    rw [List.getElem?_take_of_lt (by omega)]
    exact (h.applied_iff hup hpos hle).mp happlied
  rcases membersAfter_cases S.members
      (((ledger k).log id).take n.standing.lastApplied) with
    ⟨hsame, hnone⟩ | ⟨p, e, hp, hconfig, hlast⟩
  · refine Or.inl ⟨hsame, fun index e happlied hle => ?_⟩
    exact hnone e (List.mem_of_getElem? (hget happlied hle).2)
  · have hlt := (List.getElem?_eq_some_iff.mp hp).1
    rw [List.length_take] at hlt
    have hreach : p + 1 ≤ n.standing.lastApplied := by omega
    rw [List.getElem?_take_of_lt (by omega)] at hp
    refine Or.inr ⟨p + 1, e, (h.applied_iff hup (Nat.succ_pos p) hreach).mpr hp, hconfig,
      fun later e' happlied hle hsome => ?_⟩
    obtain ⟨hpos, hlater⟩ := hget happlied hle
    have hmost := hlast (later - 1) e' hlater hsome
    omega

/-- A node of a later term has applied a membership that this one has not. -/
def Overtakes (r : Run S) (k : ℕ) (n : Node Memory) : Prop :=
  ∃ j ≤ k, ∃ other m index e, r.Up j other m ∧
    n.standing.currentTerm < m.standing.currentTerm ∧ r.Applied j other index e ∧
      e.config?.isSome = true ∧ n.standing.lastApplied < index

/-- The members that a leader has were the cluster's at some moment. -/
theorem Account.exists_constitutes_committed (h : r.Account ledger) (hup : r.Up k id n)
    (hrole : n.standing.role = .leader) :
    ∃ j ≤ k, r.Constitutes j n.membership.committed := by
  rcases h.committed_cases hup hrole with ⟨hsame, -⟩ | ⟨index, e, happlied, hconfig, -⟩
  · refine ⟨0, Nat.zero_le k, ?_⟩
    rw [hsame]
    exact .initial fun _ _ _ happlied => absurd happlied not_applied_zero
  · obtain ⟨j, hle, -, hconstitutes⟩ := h.exists_constitutes happlied hconfig
    exact ⟨j, hle, hconstitutes⟩

/-- Nobody has applied a membership beyond a leader that has none left to apply,
unless in a later term. -/
theorem Account.overtakes (h : r.Account ledger) (hup : r.Up k id n)
    (hrole : n.standing.role = .leader)
    (hfree : n.membership.pending.isSome = false) {other : ℕ}
    (happlied : r.Applied k other index e) (hconfig : e.config?.isSome = true)
    (hlt : n.standing.lastApplied < index) : r.Overtakes k n := by
  obtain ⟨j, hle, m, hm, hreach⟩ := h.exists_up_of_applied happlied
  obtain ⟨f, hf⟩ := h.exists_applied hm (by omega) hreach
  obtain rfl : f = e := h.applied_unique hf happlied
  refine ⟨j, hle, other, m, index, f, hm, ?_, hf, hconfig, hlt⟩
  by_contra hterm
  -- otherwise the leader has it in its log, and waits for it
  have htracks := (h.ready hup).tracks
  have hother := (h.ready hm).tracks
  obtain ⟨election, helection, -⟩ := (htracks.leader hrole).elected
  have hbound : (ledger j).term other + 1 ≤ (ledger k).term id + 1 := by
    rw [← hother.term, ← htracks.term]
    omega
  have hprefix := (h.sound k).settled_isPrefix_lead
    (hother.applied_settled.mono (h.grows hle) hbound) helection
  rw [(htracks.leader hrole).lead] at hprefix
  have hget : ((ledger k).log id)[index - 1]? = some f := by
    apply getElem?_of_isPrefix hprefix
    rw [List.getElem?_take_of_lt (by omega)]
    exact (h.applied_iff hm (by omega) hreach).mp hf
  have hin : f ∈ ((ledger k).log id).drop n.standing.lastApplied := by
    refine List.mem_iff_getElem?.mpr ⟨index - 1 - n.standing.lastApplied, ?_⟩
    rw [List.getElem?_drop, Nat.add_sub_cancel' (by omega)]
    exact hget
  obtain ⟨change, hchange, -⟩ := htracks.noticed f hin hconfig
  rw [hchange] at hfree
  exact Bool.noConfusion hfree

/-- A leader that waits for no membership has the members of the cluster, unless it
was overtaken. -/
theorem Account.constitutes_or_overtakes (h : r.Account ledger) (hup : r.Up k id n)
    (hrole : n.standing.role = .leader)
    (hfree : n.membership.pending.isSome = false) :
    r.Constitutes k n.membership.committed ∨ r.Overtakes k n := by
  by_cases hbeyond : ∃ other index e, r.Applied k other index e ∧
      e.config?.isSome = true ∧ n.standing.lastApplied < index
  · obtain ⟨other, index, e, happlied, hconfig, hlt⟩ := hbeyond
    exact Or.inr (h.overtakes hup hrole hfree happlied hconfig hlt)
  · left
    -- so whatever membership was applied, the leader has applied it
    have hown : ∀ {other index : ℕ} {e : Entry}, r.Applied k other index e →
        e.config?.isSome = true →
          r.Applied k id index e ∧ index ≤ n.standing.lastApplied := by
      intro other index e happlied hconfig
      have hle : index ≤ n.standing.lastApplied :=
        not_lt.mp fun hlt => hbeyond ⟨other, index, e, happlied, hconfig, hlt⟩
      obtain ⟨-, -, -, hpos, -⟩ := h.settledAt happlied
      obtain ⟨f, hf⟩ := h.exists_applied hup hpos hle
      obtain rfl : f = e := h.applied_unique hf happlied
      exact ⟨hf, hle⟩
    rcases h.committed_cases hup hrole with
      ⟨hsame, hnone⟩ | ⟨index, e, happlied, hconfig, hlast⟩
    · rw [hsame]
      refine .initial fun other index e happlied => ?_
      cases hconfig : e.config? with
      | none => rfl
      | some members =>
          obtain ⟨hmine, hle⟩ := hown happlied (Option.isSome_of_eq_some hconfig)
          exact absurd (hconfig.symm.trans (hnone index e hmine hle)) (by simp)
    · refine .applied happlied hconfig fun other later e' hlater hsome => ?_
      obtain ⟨hmine, hle⟩ := hown hlater hsome
      exact hlast later e' hmine hle hsome

end Run

end Consensus
