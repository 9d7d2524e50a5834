import Consensus.Table
import Mathlib.Data.List.Nodup
import Mathlib.Data.Nat.Notation

/-!
# What a table holds

A table that has no key twice holds exactly the values that are found in it.  A
new key adds its value to the others, and erasing a key takes its value away.
-/

namespace Consensus.Table

variable {α : Type} {t : Table α} {key : ℕ} {value : α}

/-- No key occurs twice. -/
def Distinct (t : Table α) : Prop := t.keys.Nodup

theorem distinct_empty : Distinct (∅ : Table α) := List.nodup_nil

theorem Distinct.restrict (h : t.Distinct) (keep : ℕ → Bool) :
    (t.restrict keep).Distinct := by
  apply List.Nodup.sublist _ h
  exact List.filter_sublist.map Prod.fst

theorem Distinct.erase (h : t.Distinct) (key : ℕ) : (t.erase key).Distinct :=
  h.restrict _

/-- A key that is not found is not there. -/
theorem not_mem_keys {rows : List (ℕ × α)} (hnone : rows.lookup key = none) :
    key ∉ rows.map Prod.fst := by
  induction rows with
  | nil => exact List.not_mem_nil
  | cons row rows ih =>
      rw [lookup_cons_if] at hnone
      split at hnone
      · exact absurd hnone (by simp)
      · next hne =>
        intro hin
        rcases List.mem_cons.mp hin with rfl | hin
        · exact hne rfl
        · exact ih hnone hin

/-- A new row comes to the others. -/
theorem insertRow_perm {rows : List (ℕ × α)} (hnone : rows.lookup key = none) :
    (insertRow key value rows).Perm ((key, value) :: rows) := by
  induction rows with
  | nil => exact List.Perm.refl _
  | cons row rows ih =>
      rw [lookup_cons_if] at hnone
      split at hnone
      · exact absurd hnone (by simp)
      · next hne =>
        rw [insertRow, if_neg hne]
        split
        · exact List.Perm.refl _
        · exact ((ih hnone).cons row).trans (List.Perm.swap _ _ _)

theorem Distinct.insert (h : t.Distinct) (hnone : t.get? key = none)
    (value : α) : (t.insert key value).Distinct := by
  have hperm : (t.insert key value).keys.Perm (key :: t.keys) :=
    (insertRow_perm hnone).map Prod.fst
  apply hperm.nodup_iff.mpr
  exact List.nodup_cons.mpr ⟨not_mem_keys hnone, h⟩

theorem values_insert (hnone : t.get? key = none) (value : α) :
    (t.insert key value).values.Perm (value :: t.values) :=
  (insertRow_perm hnone).map Prod.snd

/-- The row of a key is the only one that erasing the key takes away. -/
theorem rows_perm_erase {rows : List (ℕ × α)} (h : (rows.map Prod.fst).Nodup)
    (hvalue : rows.lookup key = some value) :
    rows.Perm ((key, value) :: rows.filter fun row => row.1 != key) := by
  induction rows with
  | nil => exact absurd hvalue (by simp)
  | cons row rows ih =>
      obtain ⟨hfresh, hrest⟩ := List.nodup_cons.mp h
      rw [lookup_cons_if] at hvalue
      split at hvalue
      · next hkey =>
        obtain rfl := Option.some.inj hvalue
        subst hkey
        have hall : rows.filter (fun r => r.1 != row.1) = rows := by
          apply List.filter_eq_self.mpr
          intro r hr
          apply bne_iff_ne.mpr
          intro heq
          exact hfresh (heq ▸ List.mem_map_of_mem hr)
        rw [List.filter_cons_of_neg (by simp), hall]
      · next hne =>
        rw [List.filter_cons_of_pos (by simpa using Ne.symm hne)]
        exact ((ih hrest hvalue).cons row).trans (List.Perm.swap _ _ _)

theorem Distinct.values_erase (h : t.Distinct) (hvalue : t.get? key = some value) :
    t.values.Perm (value :: (t.erase key).values) :=
  (rows_perm_erase h hvalue).map Prod.snd

/-- Nothing changes when a key is erased that is not there. -/
theorem erase_of_get? (hnone : t.get? key = none) : t.erase key = t := by
  have hrows : t.rows.filter (fun row => row.1 != key) = t.rows := by
    apply List.filter_eq_self.mpr
    intro row hrow
    apply bne_iff_ne.mpr
    intro heq
    exact not_mem_keys hnone (heq ▸ List.mem_map_of_mem hrow)
  exact congrArg Table.mk hrows

/-- A value that is found is in the table. -/
theorem mem_values (t : Table α) (hvalue : t.get? key = some value) :
    value ∈ t.values := by
  obtain ⟨rows⟩ := t
  induction rows with
  | nil => exact absurd hvalue (by simp [get?])
  | cons row rows ih =>
      change (row :: rows).lookup key = some value at hvalue
      rw [lookup_cons_if] at hvalue
      split at hvalue
      · obtain rfl := Option.some.inj hvalue
        exact List.mem_cons_self
      · exact List.mem_cons_of_mem _ (ih hvalue)

/-- A table that has no key twice has each of its values at some key. -/
theorem Distinct.exists_get? (h : t.Distinct) (hvalue : value ∈ t.values) :
    ∃ key, t.get? key = some value := by
  obtain ⟨row, hrow, rfl⟩ := List.mem_map.mp hvalue
  obtain ⟨before, after, hrows⟩ := List.append_of_mem hrow
  refine ⟨row.1, List.lookup_eq_some_iff.mpr ⟨before, after, hrows, ?_⟩⟩
  have hkeys : (before.map Prod.fst ++ row.1 :: after.map Prod.fst).Nodup := by
    rw [← List.map_cons, ← List.map_append, ← hrows]
    exact h
  intro other hother
  have hfirst := (List.nodup_append.mp hkeys).2.2 other.1
    (List.mem_map_of_mem hother) row.1 List.mem_cons_self
  exact bne_iff_ne.mpr hfirst.symm

theorem eq_empty_of_get? (hnone : ∀ key, t.get? key = none) : t = ∅ := by
  obtain ⟨rows⟩ := t
  cases rows with
  | nil => rfl
  | cons row rows =>
      have hfirst := hnone row.1
      change (row :: rows).lookup row.1 = none at hfirst
      rw [lookup_cons_if, if_pos rfl] at hfirst
      exact absurd hfirst (by simp)

/-- Looking up after the same value was put at several keys. -/
theorem get?_insertAll (t : Table α) (keys : List ℕ) (value : α) (key : ℕ) :
    (keys.foldl (fun t key => t.insert key value) t).get? key =
      if key ∈ keys then some value else t.get? key := by
  induction keys generalizing t with
  | nil => rw [if_neg List.not_mem_nil, List.foldl_nil]
  | cons first keys ih =>
      rw [List.foldl_cons, ih, get?_insert]
      by_cases hin : key ∈ keys
      · rw [if_pos hin, if_pos (List.mem_cons_of_mem _ hin)]
      · rw [if_neg hin]
        by_cases hfirst : key = first
        · rw [if_pos hfirst, if_pos (hfirst ▸ List.mem_cons_self)]
        · rw [if_neg hfirst, if_neg (List.not_mem_cons_of_ne_of_not_mem hfirst hin)]

/-- A change of a value neither adds a key nor takes one away. -/
theorem isSome_get?_modify (t : Table α) (changed : ℕ) (change : α → α) (key : ℕ) :
    ((t.modify changed change).get? key).isSome = (t.get? key).isSome := by
  rw [get?_modify]
  split
  · exact Option.isSome_map
  · rfl

/-- Nothing is left once the only key is erased. -/
theorem erase_insert_empty (key : ℕ) (value : α) :
    ((∅ : Table α).insert key value).erase key = ∅ := by
  apply eq_empty_of_get?
  intro other
  rw [get?_erase, get?_insert]
  split <;> rfl

/-! ## Tables all of whose values have a property -/

section Every

variable {P : α → Prop}

/-- Whatever is found in the table has the property. -/
def Every (P : α → Prop) (t : Table α) : Prop :=
  ∀ key value, t.get? key = some value → P value

theorem every_empty : Every P (∅ : Table α) := by
  intro key value hvalue
  rw [get?_empty] at hvalue
  exact absurd hvalue (by simp)

theorem every_of_values (h : ∀ value ∈ t.values, P value) : t.Every P :=
  fun _ value hvalue => h value (t.mem_values hvalue)

theorem Every.insert (h : t.Every P) (key : ℕ) {value : α} (hvalue : P value) :
    (t.insert key value).Every P := by
  intro k found hfound
  rw [get?_insert] at hfound
  split at hfound
  · exact Option.some.inj hfound ▸ hvalue
  · exact h k found hfound

theorem Every.insertAll (h : t.Every P) {value : α} (hvalue : P value)
    (keys : List ℕ) : Every P (keys.foldl (fun t key => t.insert key value) t) := by
  induction keys generalizing t with
  | nil => exact h
  | cons key keys ih => exact ih (h.insert key hvalue)

theorem Every.restrict (h : t.Every P) (keep : ℕ → Bool) :
    (t.restrict keep).Every P := by
  intro key value hvalue
  rw [get?_restrict] at hvalue
  split at hvalue
  · exact h key value hvalue
  · exact absurd hvalue (by simp)

theorem Every.modify (h : t.Every P) (key : ℕ) {change : α → α}
    (hchange : ∀ value, P value → P (change value)) :
    (t.modify key change).Every P := by
  intro k found hfound
  rw [get?_modify] at hfound
  split at hfound
  · obtain ⟨value, hvalue, rfl⟩ := Option.map_eq_some_iff.mp hfound
    exact hchange value (h k value hvalue)
  · exact h k found hfound

end Every

end Consensus.Table
