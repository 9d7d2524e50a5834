import Consensus.Basic

/-!
# Counting in words and without bound

The theory counts without bound, unless it says otherwise.  A running node counts in
words, and both come to the same wherever a sum or a difference is a word.
-/

namespace Consensus

attribute [instance] Counting.unbounded

namespace Counting

variable {a b : Nat}

@[simp]
theorem plus_eq (a b : Nat) : plus a b = a + b := rfl

@[simp]
theorem minus_eq (a b : Nat) : minus a b = a - b := rfl

@[simp]
theorem nextTerm_eq (term : Nat) : nextTerm term = term + 1 := rfl

theorem words_plus (h : a + b < wordBound) : words.plus a b = a + b :=
  Nat.mod_eq_of_lt h

theorem words_minus (hle : b ≤ a) (h : a < wordBound) : words.minus a b = a - b := by
  change (wordBound + a - b) % wordBound = a - b
  rw [Nat.add_sub_assoc hle, Nat.add_mod_left, Nat.mod_eq_of_lt (by omega)]

theorem words_nextTerm {term : Nat} (h : term + 1 < wordBound) :
    words.nextTerm term = term + 1 :=
  words_plus h

end Counting

end Consensus
