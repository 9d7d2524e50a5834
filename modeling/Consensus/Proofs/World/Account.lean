import Consensus.Proofs.Node.Recovering
import Consensus.Proofs.World.Backing

/-!
# A ledger for every run

The ledger accounts for a world if every node is where the ledger says, every
node that stopped left what the ledger says, and every packet is backed.  Each
step is accounted for by a ledger that grew by the doing of one node, so a run
has a ledger at every moment.

A start needs one thing more.  A node recovers its membership up to the entries
that its consumer or its snapshot has applied, and it can only stand for the
memberships after that if there is at most one.  Where the members stay there
is none.
-/

namespace Consensus

variable {S : Scope} {ℓ ℓ' : Ledger} {w w' : World} {id : ℕ} {action : Action}

/-! ## Accounts of a world -/

/-- What the ledger says of a node, or of what is left of it. -/
def Place.Accounted (S : Scope) (ℓ : Ledger) (id : ℕ) : Place → Prop
  | .up n => n.Ready S ℓ id
  | .down d => d.Lasts S ℓ id
  | .failed => True

theorem Place.Accounted.mono {other : ℕ} {place : Place}
    (h : place.Accounted S ℓ id) (hmoves : ℓ.Moves other ℓ') (hne : id ≠ other) :
    place.Accounted S ℓ' id := by
  cases place with
  | up n => exact Node.Ready.mono h hmoves hne
  | down d => exact Durable.Lasts.mono h hmoves hne
  | failed => trivial

/-- The ledger accounts for the world. -/
structure World.Accounted (S : Scope) (ℓ : Ledger) (w : World) : Prop where
  sound : ℓ.Sound S
  place : ∀ id, (w.place id).Accounted S ℓ id
  sent : ∀ packet ∈ w.sent, packet.Backed S ℓ

theorem World.Accounted.up {n : Node Memory} (h : w.Accounted S ℓ)
    (hup : w.place id = .up n) : n.Ready S ℓ id := by
  have hplace := h.place id
  rw [hup] at hplace
  exact hplace

theorem World.Accounted.down {d : Durable Memory} (h : w.Accounted S ℓ)
    (hdown : w.place id = .down d) : d.Lasts S ℓ id := by
  have hplace := h.place id
  rw [hdown] at hplace
  exact hplace

theorem World.Accounted.numbered (h : w.Accounted S ℓ) (id : ℕ) :
    Numbered (ℓ.log id) :=
  h.sound.numbered (h.sound.node id).grounded

/-- Before any node starts, nothing has happened. -/
theorem World.Initial.accounted (h : w.Initial) : w.Accounted S .empty where
  sound := Ledger.sound_empty S
  place id := by
    obtain ⟨recorder, hfresh, hplace⟩ := h.place id
    rw [hplace]
    have hlasts : Durable.Lasts S .empty id ⟨{}, {}⟩ := {
      keeps := ⟨⟨rfl, rfl⟩, rfl, fun _ hnone => absurd hnone (by simp)⟩
      hardState := rfl
      record := rfl
      applied := ⟨0, le_rfl, le_rfl, le_rfl, Or.inl rfl⟩ }
    exact hlasts.fresh hfresh
  sent packet hpacket := by
    rw [h.sent] at hpacket
    exact absurd hpacket List.not_mem_nil

theorem World.Accounted.put {place : Place} (h : w.Accounted S ℓ)
    (hplace : place.Accounted S ℓ id) : (w.put id place).Accounted S ℓ where
  sound := h.sound
  place other := by
    by_cases hsame : other = id
    · subst hsame
      rw [World.place_put_self]
      exact hplace
    · rw [World.place_put_of_ne w place hsame]
      exact h.place other
  sent := h.sent

theorem World.Accounted.after {place : Place} {origin : Option Origin}
    {effects : List Effect} (h : w.Accounted S ℓ) (hmoves : ℓ.Moves id ℓ')
    (hsound : ℓ'.Sound S) (hplace : place.Accounted S ℓ' id)
    (hsent : ∀ effect ∈ effects, ∀ packet,
      effect.packet? id origin = some packet → packet.Backed S ℓ') :
    (w.after id place origin effects).Accounted S ℓ' where
  sound := hsound
  place other := by
    by_cases hsame : other = id
    · subst hsame
      rw [World.place_after_self]
      exact hplace
    · rw [World.place_after_of_ne w place origin effects hsame]
      exact (h.place other).mono hmoves hsame
  sent packet hpacket := by
    rcases List.mem_append.mp hpacket with hold | hnew
    · exact (h.sent packet hold).mono hmoves.toGrows
    · obtain ⟨effect, heffect, hsends⟩ := List.mem_filterMap.mp hnew
      exact hsent effect heffect packet hsends

/-! ## One step -/

/-- A node that started has at most so many memberships in its log that it has
not applied. -/
def Action.Leaves (w' : World) (bound : ℕ) : Action → Prop
  | .start id _ _ => ∀ n, w'.place id = .up n →
      changes (n.log.entriesAfter n.standing.lastApplied) ≤ bound
  | _ => True

/-- The ledger after the step tells what the step did. -/
structure World.Accounts (S : Scope) (ℓ ℓ' : Ledger) (w : World)
    (action : Action) : Prop where
  grows : ℓ.Grows ℓ'
  advances : ∀ id event origin n, action = .event id event origin →
    w.place id = .up n → ∃ commit, n.Advances S ℓ ℓ' id commit event

theorem World.Accounts.refl (hother : ∀ id event origin,
    action ≠ .event id event origin) : World.Accounts S ℓ ℓ w action :=
  ⟨.refl ℓ, fun id event origin _ haction =>
    absurd haction (hother id event origin)⟩

theorem World.Accounts.of_advances {event : Event} {origin : Option Origin}
    {n : Node Memory} {commit : ℕ} (hup : w.place id = .up n)
    (h : n.Advances S ℓ ℓ' id commit event) :
    World.Accounts S ℓ ℓ' w (.event id event origin) := by
  refine ⟨h.moves.toGrows, ?_⟩
  rintro _ _ _ m haction hm
  obtain ⟨rfl, rfl, rfl⟩ := Action.event.inj haction
  obtain rfl := Place.up.inj (hup.symm.trans hm)
  exact ⟨commit, h⟩

namespace Durable

variable {d : Durable Memory} {recorder : Recorder}

theorem Lasts.replaced (h : d.Lasts S ℓ id) (hreplaces : recorder.Replaces d.recorder) :
    Lasts S ℓ id ⟨d.disk, recorder⟩ := by
  rcases hreplaces with ⟨rfl, -⟩ | hfresh
  · exact h
  · exact h.fresh hfresh

theorem says_of_replaces (hreplaces : recorder.Replaces d.recorder) :
    recorder.lastApplied = recorder.record.lastApplied := by
  rcases hreplaces with ⟨rfl, hdurable⟩ | hfresh
  · exact if_pos hdurable
  · unfold Recorder.lastApplied
    rw [hfresh]
    exact ite_self 0

theorem record_le_of_replaces (hreplaces : recorder.Replaces d.recorder) :
    recorder.record.lastApplied ≤ d.recorder.record.lastApplied := by
  rcases hreplaces with ⟨rfl, -⟩ | hfresh
  · exact le_rfl
  · rw [hfresh]
    exact Nat.zero_le _

end Durable

theorem Scope.Allows.members {settings : Settings} (h : S.Allows id settings) :
    NodeSet.ofList settings.members = S.members ∨
      NodeSet.ofList settings.members = ∅ := by
  rcases h.2 with hsame | ⟨-, hnone⟩
  · exact Or.inl hsame
  · right
    rw [hnone]
    rfl

/-- Every step is accounted for. -/
theorem World.Step.accounted (h : w.Step S action w') (hw : w.Accounted S ℓ)
    (hstart : S.fixed ∨ action.Leaves w' 1) :
    ∃ ℓ', w'.Accounted S ℓ' ∧ World.Accounts S ℓ ℓ' w action := by
  cases h with
  | handled hup harrives hrun =>
      obtain ⟨hbacked, hfits⟩ := harrives.backed hw.sent
      obtain ⟨ℓ', commit, hadvances⟩ := (hw.up hup).advances hw.sound hbacked
      obtain ⟨hrests, -, htold⟩ := (hadvances.handled _).ok hrun
      refine ⟨ℓ', ?_, .of_advances hup hadvances⟩
      exact hw.after hadvances.moves hadvances.sound hrests.toReady
        fun effect heffect _ hsends => (htold effect heffect).sends hfits hsends
  | failed hup harrives hrun =>
      obtain ⟨hbacked, hfits⟩ := harrives.backed hw.sent
      obtain ⟨ℓ', commit, hadvances⟩ := (hw.up hup).advances hw.sound hbacked
      obtain ⟨-, htold⟩ := (hadvances.handled _).error hrun
      refine ⟨ℓ', ?_, .of_advances hup hadvances⟩
      exact hw.after hadvances.moves hadvances.sound trivial
        fun effect heffect _ hsends => (htold effect heffect).sends hfits hsends
  | @stopped id n hup =>
      refine ⟨ℓ, hw.put ?_, .refl fun _ _ _ => by simp⟩
      exact Durable.lasts_of_ready (hw.up hup) (hw.numbered id)
  | @started id settings recorder d d' n hdown hallows hreplaces hrun =>
      refine ⟨ℓ, hw.put ?_, .refl fun _ _ _ => by simp⟩
      have hstarts := ((hw.down hdown).replaced hreplaces).starts
        (Durable.says_of_replaces hreplaces)
      obtain ⟨happlied, hafter, hready⟩ :=
        (hstarts.recover hw.sound hallows.1 hallows.members).ok hrun
      refine hready ?_
      rcases hstart with hfixed | hleaves
      · have hnone := hw.sound.changes_eq_zero
          (hw.sound.node id).grounded hfixed
        have hle := changes_le_of_sublist
          (List.drop_sublist (Durable.reach ⟨d.disk, recorder⟩) (ℓ.log id))
        omega
      · rw [← hafter]
        exact hleaves n (World.place_put_self _ _)
  | @refused id settings recorder d d' e hdown hallows hreplaces hrun =>
      refine ⟨ℓ, hw.put ?_, .refl fun _ _ _ => by simp⟩
      have hlasts := (hw.down hdown).replaced hreplaces
      have hstarts := hlasts.starts (Durable.says_of_replaces hreplaces)
      have hsame :=
        (hstarts.recover hw.sound hallows.1 hallows.members).error hrun
      rw [hsame]
      exact hlasts
  | idle => exact ⟨ℓ, hw, .refl fun _ _ _ => by simp⟩

/-! ## A whole run -/

namespace Run

variable {r : Run S} {ledger : ℕ → Ledger}

/-- Every start leaves at most so many memberships unapplied. -/
def Leaves (r : Run S) (bound : ℕ) : Prop :=
  ∀ k, (r.action k).Leaves (r.world (k + 1)) bound

theorem Leaves.mono {bound bound' : ℕ} (h : r.Leaves bound)
    (hle : bound ≤ bound') : r.Leaves bound' := by
  intro k
  have hleaves := h k
  cases haction : r.action k with
  | start id settings recorder =>
      rw [haction] at hleaves
      exact fun n hup => (hleaves n hup).trans hle
  | _ => trivial

/-- The ledgers account for the run. -/
structure Account (r : Run S) (ledger : ℕ → Ledger) : Prop where
  accounted : ∀ k, (r.world k).Accounted S (ledger k)
  accounts : ∀ k,
    World.Accounts S (ledger k) (ledger (k + 1)) (r.world k) (r.action k)

/-- Every run has an account in which each ledger continues the one before. -/
theorem exists_account (r : Run S) (hstart : S.fixed ∨ r.Leaves 1) :
    ∃ ledger, r.Account ledger := by
  have hnext : ∀ k (ℓ : { ℓ // (r.world k).Accounted S ℓ }),
      ∃ ℓ' : { ℓ' // (r.world (k + 1)).Accounted S ℓ' },
        World.Accounts S ℓ.1 ℓ'.1 (r.world k) (r.action k) := by
    intro k ℓ
    obtain ⟨ℓ', hw', haccounts⟩ := (r.step k).accounted ℓ.2
      (hstart.imp_right fun hleaves => hleaves k)
    exact ⟨⟨ℓ', hw'⟩, haccounts⟩
  choose next haccounts using hnext
  let ledger : ∀ k, { ℓ // (r.world k).Accounted S ℓ } := fun k =>
    k.rec ⟨.empty, r.initial.accounted⟩ next
  exact ⟨fun k => (ledger k).1, fun k => (ledger k).2,
    fun k => haccounts k (ledger k)⟩

theorem Account.grows (h : r.Account ledger) {j k : ℕ} (hle : j ≤ k) :
    (ledger j).Grows (ledger k) := by
  induction k, hle using Nat.le_induction with
  | base => exact .refl _
  | succ k _ ih => exact ih.trans (h.accounts k).grows

theorem Account.sound (h : r.Account ledger) (k : ℕ) : (ledger k).Sound S :=
  (h.accounted k).sound

theorem Account.ready (h : r.Account ledger) {k : ℕ} {n : Node Memory}
    (hup : r.Up k id n) : n.Ready S (ledger k) id :=
  (h.accounted k).up hup

end Run

end Consensus
