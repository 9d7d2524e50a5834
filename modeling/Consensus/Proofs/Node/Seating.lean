import Consensus.Proofs.Node.Keeping

/-!
# Only members stand and lead

Only a committed member stands for election, and a leader that applies its own removal
steps down before it goes on.  In between it leads without being a member, so this holds
of a node only when an event is over.
-/

namespace Consensus.Node

variable {σ : Type} {n m : Node σ}

/-- A candidate or leader is a committed member. -/
def Seated (n : Node σ) : Prop :=
  n.standing.role ≠ .follower → n.self ∈ n.membership.committed

theorem seated_of_follower (hrole : n.standing.role = .follower) : n.Seated :=
  fun hactive => absurd hrole hactive

theorem Abides.seated (h : Abides n m) (hn : n.Seated) : m.Seated := by
  rcases h.role with hsame | hfollows
  · unfold Seated
    rw [hsame, h.self, h.committed]
    exact hn
  · exact seated_of_follower hfollows

variable [Storage σ]

/-- Whatever is applied, a leader that goes on to lead is a member. -/
theorem ensures_applyNext_seated (hrole : n.standing.role ≠ .candidate) :
    Ensures applyNext n (fun _ m => m.Seated ∧ m.standing.role ≠ .candidate)
      fun _ => True := by
  unfold applyNext
  rw [Ensures.get_bind_iff]
  dsimp only
  cases n.log.get? (n.standing.lastApplied + 1) with
  | none => trivial
  | some entry =>
      have henacted := enacted_applyEntry n entry (n.standing.lastApplied + 1)
      have hsame : (n.applyEntry entry (n.standing.lastApplied + 1)).standing.role =
          n.standing.role := by
        rw [henacted.standing]
      dsimp only
      rw [Ensures.set_bind_iff, Ensures.get_bind_iff]
      refine Ensures.ite (fun _ => ?_) fun hstays => ⟨fun hactive => ?_, ?_⟩
      · rw [Ensures.set_bind_iff]
        refine (role_stepDown _ _).imp fun _ m hm => ⟨seated_of_follower hm, ?_⟩
        rw [hm]
        simp
      · by_contra hself
        refine hstays ⟨?_, hself⟩
        rw [hsame] at hactive ⊢
        cases hcase : n.standing.role with
        | follower => exact absurd hcase hactive
        | candidate => exact absurd hcase hrole
        | leader => rfl
      · rw [hsame]
        exact hrole

theorem ensures_applyMany_seated (count : ℕ) (hn : n.Seated)
    (hrole : n.standing.role ≠ .candidate) :
    Ensures (applyMany count) n (fun _ m => m.Seated) fun _ => True := by
  induction count generalizing n with
  | zero => exact hn
  | succ count ih =>
      exact (ensures_applyNext_seated hrole).andThen fun _ m hm => ih hm.1 hm.2

theorem secures_seated_applyCommitted (hn : n.Seated)
    (hrole : n.standing.role ≠ .candidate) : Secures Seated applyCommitted n := by
  unfold Secures applyCommitted
  rw [Ensures.get_bind_iff]
  refine (ensures_applyMany_seated _ hn hrole).andThen fun _ m hm => ?_
  rw [Ensures.modify_bind_iff]
  refine (rest_compactIfLong _).imp fun _ k hk => hk.abides.seated ?_
  exact (still_emit m _).abides.seated hm

theorem kept_seated : Kept (Seated (σ := σ)) where
  abides h hn := h.seated hn
  stands _ hself _ := hself
  leads {n} hn hrole _ := by
    rw [n.aside_crowned.self, n.aside_crowned.membership]
    exact hn (by rw [hrole]; simp)
  commits index hn hrole := by
    refine secures_seated_applyCommitted hn ?_
    rw [mapStanding, hrole]
    simp
  follows hrole :=
    secures_seated_applyCommitted (seated_of_follower hrole) (by rw [hrole]; simp)

end Consensus.Node
