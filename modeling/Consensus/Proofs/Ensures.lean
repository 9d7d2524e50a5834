import Consensus.Basic
import Consensus.Proofs.Counting
import Mathlib.Logic.Basic

/-!
# What a computation leaves behind

A handler of events may fail, and then what it did so far has happened.  So a
statement about a handler has two ends: what holds of the answer and the state
when it succeeds, and what holds of the state when it fails.
-/

namespace Consensus

/-- From `s` the computation ends well with `Q`, or fails with `E`. -/
def Ensures {ε σ α : Type} (act : EStateM ε σ α) (s : σ) (Q : α → σ → Prop)
    (E : σ → Prop) : Prop :=
  match act s with
  | .ok a s' => Q a s'
  | .error _ s' => E s'

theorem eq_ok_of_outcome {ε σ α : Type} {act : EStateM ε σ α} {s : σ} {a : α}
    (h : (outcome act s).1 = .ok a) : act s = .ok a (outcome act s).2 := by
  unfold outcome at h ⊢
  cases hrun : act s with
  | ok b s' =>
      rw [hrun] at h
      obtain rfl := Except.ok.inj h
      rfl
  | error e s' =>
      rw [hrun] at h
      exact absurd h (by simp)

theorem bind_apply {ε σ α β : Type} (act : EStateM ε σ α) (f : α → EStateM ε σ β)
    (s : σ) : (act >>= f) s = match act s with
      | .ok a s' => f a s'
      | .error e s' => .error e s' := rfl

/-- The second computation starts where the first one ends. -/
theorem outcome_bind_of_ok {ε σ α β : Type} {act : EStateM ε σ α}
    {f : α → EStateM ε σ β} {s s' : σ} {a : α} (h : act s = .ok a s') :
    outcome (act >>= f) s = outcome (f a) s' := by
  unfold outcome
  rw [bind_apply, h]

namespace Ensures

variable {ε σ τ α β : Type} {s s' : σ} {act : EStateM ε σ α}
  {f : α → EStateM ε σ β} {Q Q' : α → σ → Prop} {R : β → σ → Prop}
  {E E' : σ → Prop}

theorem of_ok {a : α} (h : act s = .ok a s') (hq : Q a s') :
    Ensures act s Q E := by
  rw [Ensures, h]
  exact hq

theorem of_error {e : ε} (h : act s = .error e s') (he : E s') :
    Ensures act s Q E := by
  rw [Ensures, h]
  exact he

/-- A computation ensures what both its ends do. -/
theorem of_runs (hok : ∀ a s', act s = .ok a s' → Q a s')
    (herror : ∀ e s', act s = .error e s' → E s') : Ensures act s Q E := by
  unfold Ensures
  cases hrun : act s with
  | ok a s' => exact hok a s' hrun
  | error e s' => exact herror e s' hrun

/-- Nothing is claimed. -/
theorem anything : Ensures act s (fun _ _ => True) fun _ => True :=
  of_runs (fun _ _ _ => trivial) fun _ _ _ => trivial

theorem ok (h : Ensures act s Q E) {a : α} (hrun : act s = .ok a s') :
    Q a s' := by
  rw [Ensures, hrun] at h
  exact h

theorem error (h : Ensures act s Q E) {e : ε} (hrun : act s = .error e s') :
    E s' := by
  rw [Ensures, hrun] at h
  exact h

/-- A computation that does not fail has a result. -/
theorem exists_ok (h : Ensures act s Q fun _ => False) :
    ∃ a s', act s = .ok a s' ∧ Q a s' := by
  unfold Ensures at h
  cases hrun : act s with
  | ok a s' =>
      rw [hrun] at h
      exact ⟨a, s', rfl, h⟩
  | error e s' =>
      rw [hrun] at h
      exact h.elim

/-- A computation that can only end in one way ends in it. -/
theorem eq_ok {a : α} (h : Ensures act s (fun b s'' => b = a ∧ s'' = s') fun _ => False) :
    act s = .ok a s' := by
  obtain ⟨b, s'', hrun, rfl, rfl⟩ := h.exists_ok
  exact hrun

theorem mono (h : Ensures act s Q E) (hq : ∀ a s', Q a s' → Q' a s')
    (he : ∀ s', E s' → E' s') : Ensures act s Q' E' := by
  unfold Ensures at h ⊢
  cases hrun : act s with
  | ok a s' =>
      rw [hrun] at h
      exact hq a s' h
  | error e s' =>
      rw [hrun] at h
      exact he s' h

/-- What is ensured in two ways is ensured at once. -/
theorem and (h : Ensures act s Q E) (h' : Ensures act s Q' E') :
    Ensures act s (fun a s' => Q a s' ∧ Q' a s') fun s' => E s' ∧ E' s' :=
  of_runs (fun _ _ hrun => ⟨h.ok hrun, h'.ok hrun⟩)
    fun _ _ hrun => ⟨h.error hrun, h'.error hrun⟩

/-- Less may be said of what it leaves when it succeeds. -/
theorem imp (h : Ensures act s Q E) (hq : ∀ a s', Q a s' → Q' a s') :
    Ensures act s Q' E :=
  h.mono hq fun _ he => he

/-- The second computation starts where the first one ends. -/
theorem bind (h : Ensures act s (fun a s' => Ensures (f a) s' R E) E) :
    Ensures (act >>= f) s R E := by
  unfold Ensures at h ⊢
  rw [bind_apply]
  cases hrun : act s with
  | ok a s' =>
      rw [hrun] at h
      exact h
  | error e s' =>
      rw [hrun] at h
      exact h

theorem bind_of_ok {a : α} (h : act s = .ok a s')
    (hrest : Ensures (f a) s' R E) : Ensures (act >>= f) s R E :=
  bind (of_ok h hrest)

/-- What comes after a computation needs only what it ensures. -/
theorem andThen (h : Ensures act s Q E)
    (hrest : ∀ a s', Q a s' → Ensures (f a) s' R E) :
    Ensures (act >>= f) s R E :=
  bind (h.imp hrest)

/-- What comes after a computation that does not fail. -/
theorem andThen_of_succeeds (h : Ensures act s Q fun _ => False)
    (hrest : ∀ a s', Q a s' → Ensures (f a) s' R E) :
    Ensures (act >>= f) s R E :=
  bind (h.mono hrest fun _ he => he.elim)

theorem ite {c : Prop} [Decidable c] {act' : EStateM ε σ α}
    (hpos : c → Ensures act s Q E) (hneg : ¬ c → Ensures act' s Q E) :
    Ensures (if c then act else act') s Q E := by
  by_cases hc : c
  · rw [if_pos hc]
    exact hpos hc
  · rw [if_neg hc]
    exact hneg hc

@[simp] theorem pure_iff {a : α} :
    Ensures (pure a : EStateM ε σ α) s Q E ↔ Q a s :=
  Iff.rfl

@[simp] theorem throw_iff {e : ε} :
    Ensures (throw e : EStateM ε σ α) s Q E ↔ E s :=
  Iff.rfl

@[simp] theorem set_iff {Q : PUnit → σ → Prop} :
    Ensures (set s' : EStateM ε σ PUnit) s Q E ↔ Q ⟨⟩ s' :=
  Iff.rfl

@[simp] theorem modify_iff {Q : PUnit → σ → Prop} {change : σ → σ} :
    Ensures (modify change : EStateM ε σ PUnit) s Q E ↔ Q ⟨⟩ (change s) :=
  Iff.rfl

@[simp] theorem pure_bind_iff {a : α} :
    Ensures ((pure a : EStateM ε σ α) >>= f) s R E ↔ Ensures (f a) s R E :=
  Iff.rfl

@[simp] theorem throw_bind_iff {e : ε} :
    Ensures ((throw e : EStateM ε σ α) >>= f) s R E ↔ E s :=
  Iff.rfl

@[simp] theorem get_bind_iff {f : σ → EStateM ε σ β} :
    Ensures ((get : EStateM ε σ σ) >>= f) s R E ↔ Ensures (f s) s R E :=
  Iff.rfl

@[simp] theorem set_bind_iff {f : PUnit → EStateM ε σ β} :
    Ensures ((set s' : EStateM ε σ PUnit) >>= f) s R E ↔
      Ensures (f ⟨⟩) s' R E :=
  Iff.rfl

@[simp] theorem modify_bind_iff {f : PUnit → EStateM ε σ β} {change : σ → σ} :
    Ensures ((modify change : EStateM ε σ PUnit) >>= f) s R E ↔
      Ensures (f ⟨⟩) (change s) R E :=
  Iff.rfl

/-- A computation on a part of the state. -/
theorem onPart {get : σ → τ} {set : τ → σ → σ} {act : EStateM ε τ α}
    (h : Ensures act (get s) (fun a t => Q a (set t s)) fun t => E (set t s)) :
    Ensures (Consensus.onPart get set act) s Q E := by
  unfold Ensures Consensus.onPart at *
  cases hrun : act (get s) with
  | ok a t =>
      rw [hrun] at h
      exact h
  | error e t =>
      rw [hrun] at h
      exact h

/-- Running one computation for every item of a list keeps what each keeps. -/
theorem forM {γ : Type} {items : List γ} {body : γ → EStateM ε σ PUnit}
    {I : σ → Prop} (hstart : I s)
    (hbody : ∀ item s, I s → Ensures (body item) s (fun _ s' => I s') E) :
    Ensures (items.forM body) s (fun _ s' => I s') E := by
  induction items generalizing s with
  | nil => exact hstart
  | cons item items ih =>
      exact bind ((hbody item s hstart).imp fun _ s' hs' => ih hs')

end Ensures

theorem onPart_ok {ε σ τ α : Type} {get : σ → τ} {set : τ → σ → σ}
    {act : EStateM ε τ α} {s : σ} {a : α} {t : τ} (h : act (get s) = .ok a t) :
    onPart get set act s = .ok a (set t s) := by
  unfold onPart
  rw [h]

end Consensus
