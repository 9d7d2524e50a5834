/-!
# Conventions and running on a part of a state

Node ids, election terms and log indices are natural numbers; the first log entry has index 1.
How the next term or index is counted is a parameter: a running node counts in words of 64
bits. Commands and snapshots are byte lists. Stateful computations keep what they did to
the state whether they succeed or fail, also when they run on one part of a larger state.
-/

namespace Consensus

/-- Opaque contents: a command or the data of a snapshot. -/
abbrev Bytes := List UInt8

/-- The number of values of 64 bits, 2 to the 64. Numbers that come from outside stay below it. -/
def wordBound : Nat := 18446744073709551616

/-- The sum of two words. Nothing looks for an overflow: past the last word it goes on at 0. -/
def addWords (a b : Nat) : Nat := (a + b) % wordBound

/-- The difference of two words, which goes on at the last word below 0. -/
def subWords (a b : Nat) : Nat := (wordBound + a - b) % wordBound

/-- How sums and differences of indices come out, and which term is the next one. -/
class Counting where
  plus : Nat → Nat → Nat
  minus : Nat → Nat → Nat
  nextTerm : Nat → Nat

namespace Counting

/-- Counting in words, as a running node does. -/
@[reducible] def words : Counting := ⟨addWords, subWords, fun term => addWords term 1⟩

/-- Counting without an end, and nothing below 0. -/
@[reducible] def unbounded : Counting := ⟨(· + ·), (· - ·), (· + 1)⟩

end Counting

/-- Run `act` on the part of the state that `get` reads and `set` replaces. A failing `act`
leaves its partial changes in the part, as a failing write leaves a disk. -/
def onPart {ε σ τ α : Type} (get : σ → τ) (set : τ → σ → σ) (act : EStateM ε τ α) :
    EStateM ε σ α := fun s =>
  match act (get s) with
  | .ok a t => .ok a (set t s)
  | .error e t => .error e (set t s)

/-- What a computation from `s` gives, and the state it leaves either way. -/
def outcome {ε σ α : Type} (act : EStateM ε σ α) (s : σ) : Except ε α × σ :=
  match act s with
  | .ok a s => (.ok a, s)
  | .error e s => (.error e, s)

end Consensus
