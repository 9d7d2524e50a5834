import Consensus.Proofs.World.Account

/-!
# What was applied

A node applies an entry when it handles an event, or takes over a snapshot of a
node that applied it.  What it once applied it has applied for good, also after
a restart that makes it apply the same index again.

Nothing is ever applied but what is settled in the ledger, and every index up to
the last one that a node or its disk knows to be applied has been.
-/

namespace Consensus

variable {S : Scope} {ℓ ℓ' : Ledger} {id index commit : ℕ} {event : Event}
  {n n' : Node Memory} {e e' : Entry}

/-! ## Settled at an index -/

/-- The entry is settled at the index. -/
def Ledger.SettledAt (S : Scope) (ℓ : Ledger) (index : ℕ) (e : Entry) : Prop :=
  ∃ bound entries, ℓ.Settled S bound entries ∧ 0 < index ∧
    entries[index - 1]? = some e

theorem Ledger.SettledAt.mono (h : ℓ.SettledAt S index e) (hgrows : ℓ.Grows ℓ') :
    ℓ'.SettledAt S index e := by
  obtain ⟨bound, entries, hsettled, hget⟩ := h
  exact ⟨bound, entries, hsettled.mono hgrows le_rfl, hget⟩

theorem getElem?_of_isPrefix {α : Type} {xs ys : List α} (h : xs <+: ys) {k : ℕ}
    {x : α} (hget : xs[k]? = some x) : ys[k]? = some x := by
  obtain ⟨rest, rfl⟩ := h
  obtain ⟨hlt, hx⟩ := List.getElem?_eq_some_iff.mp hget
  rw [List.getElem?_append_left hlt, List.getElem?_eq_getElem hlt, hx]

/-- Only one entry is ever settled at an index. -/
theorem Ledger.SettledAt.unique (h : ℓ.SettledAt S index e)
    (h' : ℓ.SettledAt S index e') (hsound : ℓ.Sound S) : e = e' := by
  obtain ⟨bound, xs, hxs, -, hget⟩ := h
  obtain ⟨bound', ys, hys, -, hget'⟩ := h'
  rcases hsound.settled_comparable hxs hys with hle | hle
  · have hsame := getElem?_of_isPrefix hle hget
    exact Option.some.inj (hsame.symm.trans hget')
  · have hsame := getElem?_of_isPrefix hle hget'
    exact Option.some.inj (hget.symm.trans hsame)

namespace Node

/-- What a node has applied is settled. -/
theorem Ready.settledAt (h : n.Ready S ℓ id) (hpos : 0 < index)
    (hle : index ≤ n.standing.lastApplied)
    (hget : (ℓ.log id)[index - 1]? = some e) : ℓ.SettledAt S index e := by
  refine ⟨_, _, h.tracks.applied_settled, hpos, ?_⟩
  rw [List.getElem?_take_of_lt (by omega)]
  exact hget

/-- What a node has in its log is what the ledger has. -/
theorem Ready.log_of_get? (h : n.Ready S ℓ id) (hget : n.log.get? index = some e) :
    (ℓ.log id)[index - 1]? = some e := by
  rw [h.tracks.journal.log.get?_eq] at hget
  split at hget
  · exact absurd hget (by simp)
  · exact hget

theorem Ready.exists_entry (h : n.Ready S ℓ id) (hpos : 0 < index)
    (hle : index ≤ n.standing.lastApplied) :
    ∃ e, (ℓ.log id)[index - 1]? = some e := by
  have hlength := h.tracks.applied_le_length
  exact ⟨_, List.getElem?_eq_getElem (by omega)⟩

/-! ## Applying at an event -/

/-- Handling the event applies the entry at the index.  A node may compact its
log in the same breath, so the log is read as it would be with another bound on
its length. -/
def Applies (n : Node Memory) (event : Event) (index : ℕ) (e : Entry) : Prop :=
  ∃ threshold n', Node.handle event (n.withThreshold threshold) = .ok () n' ∧
    n.standing.lastApplied < index ∧ index ≤ n'.standing.lastApplied ∧
    n'.log.get? index = some e

/-- What is applied at an event is settled after it. -/
theorem Advances.settledAt (h : n.Advances S ℓ ℓ' id commit event)
    (happlies : n.Applies event index e) : ℓ'.SettledAt S index e := by
  obtain ⟨threshold, n', hrun, hlt, hle, hget⟩ := happlies
  obtain ⟨hrests, -⟩ := (h.handled threshold).ok hrun
  exact hrests.toReady.settledAt (by omega) hle (hrests.toReady.log_of_get? hget)

/-- With enough room nothing is compacted, and the event does the same else. -/
theorem Advances.uncompacted (h : n.Advances S ℓ ℓ' id commit event)
    (hrun : Node.handle event n = .ok () n') :
    ∃ threshold m, Node.handle event (n.withThreshold threshold) = .ok () m ∧
      m.standing.lastApplied = n'.standing.lastApplied ∧
      m.drained.Ready S ℓ' id ∧ m.log.snapshotIndex = n.boundaryOf event := by
  obtain ⟨hrests, hcalm, -⟩ := (h.handled n.settings.compactionThreshold).ok hrun
  have hroom := h.handled (ℓ'.log id).length
  cases hcase : Node.handle event (n.withThreshold (ℓ'.log id).length) with
  | error _ m => exact absurd (hroom.error hcase).1 hcalm
  | ok _ m =>
      obtain ⟨hsame, -⟩ := hroom.ok hcase
      refine ⟨_, m, hcase, ?_, hsame.toReady, hsame.boundary le_rfl⟩
      calc m.standing.lastApplied
        _ = commit := hsame.settled.applied.trans hsame.commit
        _ = n'.standing.lastApplied :=
            (hrests.settled.applied.trans hrests.commit).symm

/-- Everything after the new start of the log is applied from the log. -/
theorem Advances.exists_applies (h : n.Advances S ℓ ℓ' id commit event)
    (hrun : Node.handle event n = .ok () n')
    (hlt : n.standing.lastApplied < index)
    (hle : index ≤ n'.standing.lastApplied)
    (hboundary : n.boundaryOf event < index) :
    ∃ e, n.Applies event index e := by
  obtain ⟨threshold, m, hrun', happlied, hready, hstart⟩ := h.uncompacted hrun
  rw [← happlied] at hle
  obtain ⟨e, he⟩ := hready.exists_entry (by omega) hle
  refine ⟨e, threshold, m, hrun', hlt, hle, ?_⟩
  have hget := hready.tracks.journal.log.get?_eq index
  rw [if_neg (by change ¬ index ≤ m.log.snapshotIndex; omega)] at hget
  exact hget.trans he

theorem Advances.boundaryOf_le (h : n.Advances S ℓ ℓ' id commit event)
    (hrun : Node.handle event n = .ok () n') :
    n.boundaryOf event ≤ n'.standing.lastApplied := by
  obtain ⟨_, m, -, happlied, hready, hstart⟩ := h.uncompacted hrun
  rw [← hstart, ← happlied]
  exact hready.tracks.boundary_le

end Node

/-! ## Applied in a run -/

namespace Run

variable {r : Run S} {ledger : ℕ → Ledger} {j k a b limit limit' : ℕ}

/-- By the moment, the node with the id has applied the entry at the index. -/
inductive Applied (r : Run S) : ℕ → ℕ → ℕ → Entry → Prop
  /-- What was applied was applied. -/
  | kept {k id index : ℕ} {e : Entry} (h : Applied r k id index e) :
      Applied r (k + 1) id index e
  /-- It was applied from the log. -/
  | applied {k id index : ℕ} {event : Event} {origin : Option Origin}
      {n : Node Memory} {e : Entry}
      (haction : r.action k = .event id event origin) (hup : r.Up k id n)
      (happlies : n.Applies event index e) : Applied r (k + 1) id index e
  /-- It came with the snapshot of a node that had applied it. -/
  | installed {k id asker ticket index : ℕ} {memo : Memo}
      {request : InstallRequest} {n n' : Node Memory} {e : Entry}
      (haction : r.action k = .event id (.installRequest ticket request)
        (some ⟨asker, memo, ticket⟩))
      (hup : r.Up k id n) (hafter : r.Up (k + 1) id n')
      (hlt : n.standing.lastApplied < index)
      (hle : index ≤ request.lastIncludedIndex)
      (hreached : request.lastIncludedIndex ≤ n'.standing.lastApplied)
      (hasker : Applied r k asker index e) : Applied r (k + 1) id index e

theorem Applied.mono {index : ℕ} (h : r.Applied j id index e) (hle : j ≤ k) :
    r.Applied k id index e := by
  induction k, hle using Nat.le_induction with
  | base => exact h
  | succ k _ ih => exact ih.kept

/-- What was applied is settled. -/
theorem Account.settledAt (h : r.Account ledger)
    (happlied : r.Applied k id index e) : (ledger k).SettledAt S index e := by
  induction happlied with
  | kept _ ih => exact ih.mono (h.accounts _).grows
  | applied haction hup happlies =>
      obtain ⟨commit, hadvances⟩ := (h.accounts _).advances _ _ _ _ haction hup
      exact hadvances.settledAt happlies
  | installed _ _ _ _ _ _ _ ih => exact ih.mono (h.accounts _).grows

/-- No two nodes ever apply different entries at one index. -/
theorem Account.applied_unique (h : r.Account ledger)
    (ha : r.Applied j a index e) (hb : r.Applied k b index e') : e = e' := by
  have hsettled := (h.settledAt ha).mono (h.grows (le_max_left j k))
  have hsettled' := (h.settledAt hb).mono (h.grows (le_max_right j k))
  exact hsettled.unique hsettled' (h.sound _)

/-! ## Nothing is left out -/

/-- The node has applied an entry at every index up to the limit. -/
def AppliedUpTo (r : Run S) (k id limit : ℕ) : Prop :=
  ∀ index, 0 < index → index ≤ limit → ∃ e, r.Applied k id index e

theorem AppliedUpTo.of_le (h : r.AppliedUpTo k id limit) (hle : limit' ≤ limit) :
    r.AppliedUpTo k id limit' :=
  fun index hpos hindex => h index hpos (hindex.trans hle)

theorem AppliedUpTo.kept (h : r.AppliedUpTo k id limit) :
    r.AppliedUpTo (k + 1) id limit := by
  intro index hpos hle
  obtain ⟨e, he⟩ := h index hpos hle
  exact ⟨e, he.kept⟩

/-- How far a node, or what is left of it, knows to have applied. -/
def appliedAt : Place → ℕ
  | .up n => n.standing.lastApplied
  | .down d => max d.recorder.record.lastApplied d.disk.boundary
  | .failed => 0

/-- Everything known to be applied was, and so was what a request stands for, by
the node that sent it. -/
structure Covered (r : Run S) (k : ℕ) : Prop where
  place : ∀ id, r.AppliedUpTo k id (appliedAt ((r.world k).place id))
  sent : ∀ asker asked memo request,
    .request asker asked memo request ∈ (r.world k).sent →
      r.AppliedUpTo k asker request.covered

/-- Where only one node moved, only this one has to be looked at. -/
theorem Covered.put {id : ℕ} {place : Place} (h : r.Covered k)
    (hworld : r.world (k + 1) = (r.world k).put id place)
    (hplace : appliedAt place ≤ appliedAt ((r.world k).place id)) :
    r.Covered (k + 1) where
  place other := by
    rw [hworld]
    by_cases hsame : other = id
    · subst hsame
      rw [World.place_put_self]
      exact ((h.place other).of_le hplace).kept
    · rw [World.place_put_of_ne _ place hsame]
      exact (h.place other).kept
  sent asker asked memo request hin := by
    rw [hworld] at hin
    exact (h.sent asker asked memo request hin).kept

theorem Covered.after {id limit : ℕ} {place : Place} {origin : Option Origin}
    {event : Event} {effects : List Effect} {ℓ : Ledger} (h : r.Covered k)
    (hworld : r.world (k + 1) = (r.world k).after id place origin effects)
    (hplace : appliedAt place ≤ limit) (hlimit : r.AppliedUpTo (k + 1) id limit)
    (htold : ∀ effect ∈ effects, effect.Told S ℓ id limit event) :
    r.Covered (k + 1) where
  place other := by
    rw [hworld]
    by_cases hsame : other = id
    · subst hsame
      rw [World.place_after_self]
      exact hlimit.of_le hplace
    · rw [World.place_after_of_ne _ place origin effects hsame]
      exact (h.place other).kept
  sent asker asked memo request hin := by
    rw [hworld] at hin
    rcases List.mem_append.mp hin with hold | hnew
    · exact (h.sent asker asked memo request hold).kept
    · obtain ⟨effect, heffect, hsends⟩ := List.mem_filterMap.mp hnew
      obtain ⟨rfl, hcovered⟩ := (htold effect heffect).covered_le hsends
      exact hlimit.of_le hcovered

/-- A node applies all that comes between the old last index and the new one,
from its log or from the snapshot that it installs. -/
theorem Account.appliedUpTo (h : r.Account ledger) (hcovered : r.Covered k)
    {id : ℕ} {event : Event} {origin : Option Origin} {n n' : Node Memory}
    (haction : r.action k = .event id event origin) (hup : r.Up k id n)
    (harrives : (r.world k).Arrives S id event origin)
    (hrun : Node.handle event n = .ok () n')
    (hafter : r.Up (k + 1) id n'.drained) :
    r.AppliedUpTo (k + 1) id n'.standing.lastApplied := by
  have hbefore : r.AppliedUpTo k id n.standing.lastApplied := by
    have hplace := hcovered.place id
    rw [hup] at hplace
    exact hplace
  obtain ⟨commit, hadvances⟩ := (h.accounts k).advances _ _ _ _ haction hup
  have hstart := (h.ready hup).tracks.boundary_le
  intro index hpos hle
  by_cases hold : index ≤ n.standing.lastApplied
  · exact hbefore.kept index hpos hold
  by_cases hboundary : n.boundaryOf event < index
  · obtain ⟨e, he⟩ := hadvances.exists_applies hrun (by omega) hle hboundary
    exact ⟨e, .applied haction hup he⟩
  -- only a snapshot moves the start of the log beyond what was applied
  have hreached := hadvances.boundaryOf_le hrun
  cases event with
  | installRequest ticket request =>
      change ¬ n.boundaryAfter request < index at hboundary
      change n.boundaryAfter request ≤ n'.standing.lastApplied at hreached
      unfold Node.boundaryAfter at hboundary hreached
      split at hboundary
      · omega
      · next hnew =>
        rw [if_neg hnew] at hreached
        cases harrives with
        | @request asker _ memo sent _ _ hsent hevent =>
            cases sent with
            | installSnapshot sent =>
                cases hevent
                obtain ⟨e, he⟩ := hcovered.sent _ _ _ _ hsent index hpos
                  (not_lt.mp hboundary)
                exact ⟨e, .installed haction hup hafter (by omega)
                  (not_lt.mp hboundary) hreached he⟩
            | _ => cases hevent
  | _ =>
      change ¬ n.log.snapshotIndex < index at hboundary
      omega

theorem Account.covered_succ (h : r.Account ledger) (hcovered : r.Covered k) :
    r.Covered (k + 1) := by
  have hstep := r.step k
  generalize haction : r.action k = action at hstep
  generalize hworld : r.world (k + 1) = w' at hstep
  cases hstep with
  | @handled id event origin n n' hup harrives hrun =>
      obtain ⟨commit, hadvances⟩ := (h.accounts k).advances _ _ _ _ haction hup
      obtain ⟨-, -, htold⟩ := (hadvances.handled _).ok hrun
      have hafter : r.Up (k + 1) id n'.drained := by
        unfold Up
        rw [hworld]
        exact World.place_after_self _ _ _ _
      have hlimit :=
        h.appliedUpTo hcovered haction hup harrives hrun hafter
      exact hcovered.after hworld le_rfl hlimit htold
  | @failed id event origin n n' e hup harrives hrun =>
      obtain ⟨commit, hadvances⟩ := (h.accounts k).advances _ _ _ _ haction hup
      obtain ⟨-, htold⟩ := (hadvances.handled _).error hrun
      have hbefore := hcovered.place id
      rw [hup] at hbefore
      exact hcovered.after hworld (Nat.zero_le _) hbefore.kept htold
  | @stopped id n hup =>
      refine hcovered.put hworld ?_
      rw [hup]
      have htracks := (h.ready hup).tracks
      exact max_le (htracks.recorded_le ((h.accounted k).numbered id))
        (htracks.journal.boundary.le.trans htracks.boundary_le)
  | @started id settings recorder d d' n hdown hallows hreplaces hrun =>
      refine hcovered.put hworld ?_
      have hlasts := ((h.accounted k).down hdown).replaced hreplaces
      have hreports := Durable.says_of_replaces hreplaces
      obtain ⟨happlied, -⟩ := ((hlasts.starts hreports).recover (h.sound k)
        hallows.1 hallows.members).ok hrun
      rw [hdown]
      change n.standing.lastApplied ≤ _
      rw [happlied, Durable.reach, hreports]
      exact max_le_max_right _ (Durable.record_le_of_replaces hreplaces)
  | @refused id settings recorder d d' e hdown hallows hreplaces hrun =>
      refine hcovered.put hworld ?_
      have hlasts := ((h.accounted k).down hdown).replaced hreplaces
      have hreports := Durable.says_of_replaces hreplaces
      have hsame := ((hlasts.starts hreports).recover (h.sound k)
        hallows.1 hallows.members).error hrun
      rw [hdown, hsame]
      exact max_le_max_right _ (Durable.record_le_of_replaces hreplaces)
  | idle =>
      refine ⟨fun id => ?_, fun asker asked memo request hin => ?_⟩
      · rw [hworld]
        exact (hcovered.place id).kept
      · rw [hworld] at hin
        exact (hcovered.sent asker asked memo request hin).kept

/-- Everything that a node knows to be applied, it has applied. -/
theorem Account.covered (h : r.Account ledger) (k : ℕ) : r.Covered k := by
  induction k with
  | zero =>
      refine ⟨fun id index hpos hle => ?_, fun _ _ _ _ hin => ?_⟩
      · obtain ⟨recorder, hfresh, hplace⟩ := r.initial.place id
        rw [hplace] at hle
        change index ≤ max recorder.record.lastApplied 0 at hle
        rw [hfresh] at hle
        exact absurd (hpos.trans_le hle) (lt_irrefl 0)
      · rw [r.initial.sent] at hin
        exact absurd hin List.not_mem_nil
  | succ k ih => exact h.covered_succ ih

theorem Account.exists_applied (h : r.Account ledger) {index : ℕ}
    (hup : r.Up k id n) (hpos : 0 < index)
    (hle : index ≤ n.standing.lastApplied) : ∃ e, r.Applied k id index e := by
  have hplace := (h.covered k).place id
  rw [hup] at hplace
  exact hplace index hpos hle

end Run

end Consensus
