import Consensus.Proofs.Node.Heeding
import Consensus.Proofs.Node.Keeping

/-!
# What is committed is applied

A node that has handled an event has nothing left to apply.  Only two things move the
commit index: a leader that counts what its peers hold, and a follower that hears of
it from its leader.  Either goes on to apply everything at once, and so does a node
that got a snapshot.  Everything else leaves both indices alone.
-/

namespace Consensus.Node

variable {σ : Type} [Storage σ] {n : Node σ}

/-! ## Applying -/

theorem ensures_applyNext (n : Node σ) :
    Ensures applyNext n
      (fun _ m => m.standing.lastApplied = n.standing.lastApplied + 1 ∧
        m.standing.commitIndex = n.standing.commitIndex)
      fun _ => True := by
  unfold applyNext
  rw [Ensures.get_bind_iff]
  dsimp only
  cases n.log.get? (n.standing.lastApplied + 1) with
  | none => trivial
  | some entry =>
      have hstanding := (enacted_applyEntry n entry
        (n.standing.lastApplied + 1)).standing
      dsimp only
      rw [Ensures.set_bind_iff, Ensures.get_bind_iff]
      apply Ensures.ite
      · intro _
        rw [Ensures.set_bind_iff]
        refine (abide_stepDown _ _).mono (fun _ m hm => ?_) fun _ _ => trivial
        rw [hm.indices.applied, hm.indices.commit, mapStanding, hstanding]
        exact ⟨rfl, rfl⟩
      · intro _
        rw [Ensures.pure_iff, hstanding]
        exact ⟨rfl, rfl⟩

theorem ensures_applyMany (n : Node σ) (count : ℕ) :
    Ensures (applyMany count) n
      (fun _ m => m.standing.lastApplied = n.standing.lastApplied + count ∧
        m.standing.commitIndex = n.standing.commitIndex)
      fun _ => True := by
  induction count generalizing n with
  | zero => exact ⟨rfl, rfl⟩
  | succ count ih =>
      refine (ensures_applyNext n).andThen fun _ m hm => ?_
      refine (ih m).mono (fun _ k hk => ?_) fun _ _ => trivial
      omega

/-- All that is committed is applied. -/
theorem secures_idle_applyCommitted (n : Node σ) : Secures Idle applyCommitted n := by
  unfold Secures applyCommitted
  rw [Ensures.get_bind_iff]
  refine (ensures_applyMany n _).andThen fun _ m hm => ?_
  rw [Ensures.modify_bind_iff]
  refine (rest_compactIfLong _).imp fun _ k hk => hk.abides.indices.idle ?_
  change m.standing.commitIndex ≤ m.standing.lastApplied
  omega

/-! ## Events -/

theorem kept_idle : Kept (Idle (σ := σ)) where
  abides h hn := h.indices.idle hn
  stands hn _ := hn
  leads {n} hn _ := by
    unfold Idle
    rw [standing_crowned]
    exact hn
  commits _ _ _ := secures_idle_applyCommitted _
  follows _ := secures_idle_applyCommitted _

/-- After every event, all that is committed is applied. -/
theorem endsIdle_handle (hn : n.Idle) (event : Event) :
    Ensures (handle event) n (fun _ m => m.Idle) fun _ => True :=
  kept_idle.handle hn hn event

/-- Between events nothing is left to apply. -/
theorem Running.idle [Storage.Faithful σ] {settings : Settings}
    (h : Running settings n) : n.Idle := by
  induction h with
  | @started d d' n hrun =>
      have hresumes := (ensures_recover settings d).ok hrun
      unfold Idle
      rw [hresumes.standing]
      rfl
  | @handled event n hn hharmless hwell ih =>
      have hidle : (outcome (handle event) n).2.Idle :=
        (endsIdle_handle ih event).ok (eq_ok_of_outcome hwell)
      exact hidle

end Consensus.Node
