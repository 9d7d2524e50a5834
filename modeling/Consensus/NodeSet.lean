import Consensus.Basic

/-!
# Finite sets of node ids

A set is its ascending list of ids, so that two sets with the same members are equal and
every listing of a set is in ascending order.
-/

namespace Consensus

/-- A finite set of node ids, listed in ascending order. -/
structure NodeSet where
  toList : List Nat
  ascending : toList.Pairwise (· < ·)
deriving DecidableEq

namespace NodeSet

/-- Put `id` at its place in an ascending list; an id already there is not repeated. -/
def insertAscending (id : Nat) : List Nat → List Nat
  | [] => [id]
  | x :: xs =>
    if id < x then id :: x :: xs
    else if id = x then x :: xs
    else x :: insertAscending id xs

theorem mem_insertAscending {id y : Nat} {xs : List Nat} :
    y ∈ insertAscending id xs ↔ y = id ∨ y ∈ xs := by
  induction xs with
  | nil => simp [insertAscending]
  | cons x xs ih =>
    simp only [insertAscending]
    split
    · simp
    · split
      · next h => subst h; simp
      · simp only [List.mem_cons, ih]
        constructor <;> rintro (h | h | h) <;> simp [h]

theorem ascending_insertAscending {id : Nat} {xs : List Nat}
    (h : xs.Pairwise (· < ·)) : (insertAscending id xs).Pairwise (· < ·) := by
  induction xs with
  | nil => simp [insertAscending]
  | cons x xs ih =>
    rw [List.pairwise_cons] at h
    simp only [insertAscending]
    split
    · next hlt =>
      refine List.pairwise_cons.2 ⟨fun y hy => ?_, List.pairwise_cons.2 h⟩
      rcases List.mem_cons.1 hy with rfl | hy
      · exact hlt
      · exact Nat.lt_trans hlt (h.1 y hy)
    · split
      · exact List.pairwise_cons.2 h
      · next hle hne =>
        refine List.pairwise_cons.2 ⟨fun y hy => ?_, ih h.2⟩
        rcases mem_insertAscending.1 hy with rfl | hy
        · omega
        · exact h.1 y hy

/-- No node at all. -/
def empty : NodeSet := ⟨[], List.Pairwise.nil⟩

instance : EmptyCollection NodeSet := ⟨empty⟩

instance : Inhabited NodeSet := ⟨empty⟩

instance : Membership Nat NodeSet := ⟨fun s id => id ∈ s.toList⟩

instance (id : Nat) (s : NodeSet) : Decidable (id ∈ s) :=
  inferInstanceAs (Decidable (id ∈ s.toList))

/-- The set with `id` added. -/
def insert (s : NodeSet) (id : Nat) : NodeSet :=
  ⟨insertAscending id s.toList, ascending_insertAscending s.ascending⟩

/-- The set without `id`. -/
def erase (s : NodeSet) (id : Nat) : NodeSet :=
  ⟨s.toList.filter (· ≠ id), s.ascending.filter _⟩

/-- The set of the listed ids; order and repetition do not matter. -/
def ofList (ids : List Nat) : NodeSet :=
  ids.foldl insert ∅

/-- The ids in either set. -/
def union (s t : NodeSet) : NodeSet :=
  t.toList.foldl insert s

/-- The number of ids in the set. -/
def size (s : NodeSet) : Nat := s.toList.length

/-- Whether the set has no ids. -/
def isEmpty (s : NodeSet) : Bool := s.toList.isEmpty

theorem mem_toList {s : NodeSet} {id : Nat} : id ∈ s.toList ↔ id ∈ s := Iff.rfl

@[simp] theorem not_mem_empty (id : Nat) : id ∉ (∅ : NodeSet) := List.not_mem_nil

@[simp] theorem mem_insert {s : NodeSet} {id y : Nat} :
    y ∈ s.insert id ↔ y = id ∨ y ∈ s := mem_insertAscending

@[simp] theorem mem_erase {s : NodeSet} {id y : Nat} :
    y ∈ s.erase id ↔ y ∈ s ∧ y ≠ id := by
  rw [← mem_toList, ← mem_toList, erase]
  simp

theorem mem_foldl_insert {ids : List Nat} {s : NodeSet} {y : Nat} :
    y ∈ ids.foldl insert s ↔ y ∈ s ∨ y ∈ ids := by
  induction ids generalizing s with
  | nil => simp
  | cons x ids ih =>
    rw [List.foldl_cons, ih, mem_insert, List.mem_cons]
    grind

@[simp] theorem mem_ofList {ids : List Nat} {y : Nat} :
    y ∈ ofList ids ↔ y ∈ ids := by
  rw [ofList, mem_foldl_insert]
  simp

@[simp] theorem mem_union {s t : NodeSet} {y : Nat} :
    y ∈ s.union t ↔ y ∈ s ∨ y ∈ t := by
  rw [union, mem_foldl_insert, mem_toList]

/-- Sets with the same members are the same set. -/
theorem ext {s t : NodeSet} (h : ∀ id, id ∈ s ↔ id ∈ t) : s = t := by
  obtain ⟨xs, hxs⟩ := s
  obtain ⟨ys, hys⟩ := t
  congr
  have hmem : ∀ id, id ∈ xs ↔ id ∈ ys := h
  clear h
  induction xs generalizing ys with
  | nil =>
    cases ys with
    | nil => rfl
    | cons y ys => exact absurd ((hmem y).2 List.mem_cons_self) List.not_mem_nil
  | cons x xs ih =>
    cases ys with
    | nil => exact absurd ((hmem x).1 List.mem_cons_self) List.not_mem_nil
    | cons y ys =>
      rw [List.pairwise_cons] at hxs hys
      have hxy : x = y := by
        rcases List.mem_cons.1 ((hmem x).1 List.mem_cons_self) with h | h
        · exact h
        · rcases List.mem_cons.1 ((hmem y).2 List.mem_cons_self) with h' | h'
          · exact h'.symm
          · have := hys.1 x h
            have := hxs.1 y h'
            omega
      subst hxy
      congr 1
      refine ih hxs.2 ys hys.2 fun id => ?_
      constructor <;> intro hid
      · rcases List.mem_cons.1 ((hmem id).1 (List.mem_cons_of_mem _ hid)) with h | h
        · exact absurd (hxs.1 id hid) (by omega)
        · exact h
      · rcases List.mem_cons.1 ((hmem id).2 (List.mem_cons_of_mem _ hid)) with h | h
        · exact absurd (hys.1 id hid) (by omega)
        · exact h

end NodeSet

end Consensus
