import Consensus.Basic

/-!
# Tables

A table gives values to natural numbers. It is listed by ascending key, and looked up by its
first entry for a key.
-/

namespace Consensus

/-- A finite table from natural numbers. -/
structure Table (α : Type) where
  rows : List (Nat × α)
deriving DecidableEq

namespace Table

variable {α : Type}

/-- The table without rows. -/
def empty : Table α := ⟨[]⟩

instance : EmptyCollection (Table α) := ⟨empty⟩

instance : Inhabited (Table α) := ⟨empty⟩

/-- The value at `key`. -/
def get? (t : Table α) (key : Nat) : Option α := t.rows.lookup key

/-- The keys, ascending. -/
def keys (t : Table α) : List Nat := t.rows.map Prod.fst

/-- The values by ascending key. -/
def values (t : Table α) : List α := t.rows.map Prod.snd

/-- Put a row at its place, in place of a row with the same key. -/
def insertRow (key : Nat) (value : α) : List (Nat × α) → List (Nat × α)
  | [] => [(key, value)]
  | row :: rows =>
    if key < row.1 then (key, value) :: row :: rows
    else if key = row.1 then (key, value) :: rows
    else row :: insertRow key value rows

/-- The table with `value` at `key`. -/
def insert (t : Table α) (key : Nat) (value : α) : Table α := ⟨insertRow key value t.rows⟩

/-- The rows whose key satisfies `keep`. -/
def restrict (t : Table α) (keep : Nat → Bool) : Table α := ⟨t.rows.filter fun r => keep r.1⟩

/-- The table without `key`. -/
def erase (t : Table α) (key : Nat) : Table α := t.restrict fun k => k != key

/-- The table with the value at `key` changed, if there is one. -/
def modify (t : Table α) (key : Nat) (change : α → α) : Table α :=
  match t.get? key with
  | some value => t.insert key (change value)
  | none => t

@[simp] theorem get?_empty (key : Nat) : (∅ : Table α).get? key = none := rfl

theorem lookup_cons_if {row : Nat × α} {rows : List (Nat × α)} {k : Nat} :
    (row :: rows).lookup k = if k = row.1 then some row.2 else rows.lookup k := by
  rw [List.lookup_cons]
  by_cases h : k = row.1
  · simp [h]
  · rw [if_neg h, show (k == row.1) = false by simp [h]]

theorem lookup_insertRow {rows : List (Nat × α)} {key k : Nat} {value : α} :
    (insertRow key value rows).lookup k = if k = key then some value else rows.lookup k := by
  induction rows with
  | nil => simp [insertRow, lookup_cons_if]
  | cons row rows ih =>
    simp only [insertRow]
    split
    · rw [lookup_cons_if]
    · split
      · next h => rw [lookup_cons_if, lookup_cons_if, ← h]; split <;> rfl
      · next h =>
        rw [lookup_cons_if, lookup_cons_if, ih]
        by_cases hk : k = row.1
        · have hne : k ≠ key := fun h' => h (h'.symm.trans hk)
          simp [hne]
        · simp [hk]

/-- Looking up after an insertion. -/
theorem get?_insert {t : Table α} {key k : Nat} {value : α} :
    (t.insert key value).get? k = if k = key then some value else t.get? k :=
  lookup_insertRow

/-- Looking up among the rows that were kept. -/
theorem get?_restrict {t : Table α} {keep : Nat → Bool} {k : Nat} :
    (t.restrict keep).get? k = if keep k then t.get? k else none := by
  obtain ⟨rows⟩ := t
  simp only [get?, restrict]
  induction rows with
  | nil => simp
  | cons row rows ih =>
    rw [List.filter_cons, lookup_cons_if]
    cases hkeep : keep row.1
    · rw [if_neg (by simp), ih]
      by_cases hk : k = row.1 <;> simp [hk, hkeep]
    · rw [if_pos rfl, lookup_cons_if, ih]
      by_cases hk : k = row.1 <;> simp [hk, hkeep]

/-- Looking up after an erasure. -/
theorem get?_erase {t : Table α} {key k : Nat} :
    (t.erase key).get? k = if k = key then none else t.get? k := by
  rw [erase, get?_restrict]
  by_cases h : k = key <;> simp [h]

/-- Looking up after a change. -/
theorem get?_modify {t : Table α} {key k : Nat} {change : α → α} :
    (t.modify key change).get? k = if k = key then (t.get? k).map change else t.get? k := by
  unfold modify
  cases hvalue : t.get? key with
  | some value =>
    rw [get?_insert]
    by_cases hk : k = key
    · rw [if_pos hk, if_pos hk, hk, hvalue]
      rfl
    · rw [if_neg hk, if_neg hk]
  | none =>
    by_cases hk : k = key
    · rw [if_pos hk, hk, hvalue]
      rfl
    · rw [if_neg hk]

/-- Two changes that agree on the value that is there are the same change. -/
theorem modify_congr {t : Table α} {key : Nat} {change change' : α → α}
    (h : ∀ value, t.get? key = some value → change value = change' value) :
    t.modify key change = t.modify key change' := by
  unfold modify
  cases hvalue : t.get? key with
  | some value => exact congrArg (t.insert key) (h value hvalue)
  | none => rfl

end Table

end Consensus
