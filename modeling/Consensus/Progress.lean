import Consensus.Basic

/-!
# How far a peer has caught up

A leader keeps, for every peer, the next index to send and the highest index the peer is
known to hold. Success moves both forward only; a mismatch moves the next index back, at
least by one and never below what the peer is known to hold.
-/

namespace Consensus

/-- A leader's view of one peer. -/
structure Progress where
  /-- The next log index to send. -/
  nextIndex : Nat
  /-- The highest index known to be on the peer. -/
  matchIndex : Nat
  /-- A request is outstanding; no other is sent until it ends. -/
  inFlight : Bool
deriving DecidableEq, Inhabited

namespace Progress

/-- A peer about which nothing is known yet. -/
def start (nextIndex : Nat) : Progress := ⟨nextIndex, 0, false⟩

/-- The peer holds everything up to `index`. -/
def recordSuccess [Counting] (p : Progress) (index : Nat) : Progress :=
  let matched := max p.matchIndex index
  { p with matchIndex := matched, nextIndex := max p.nextIndex (Counting.plus matched 1) }

/-- The peer refused what came after `nextIndex - 1`; try again just after `hint`. -/
def recordMismatch [Counting] (p : Progress) (hint : Nat) : Progress :=
  let retry := min (p.nextIndex - 1) (Counting.plus hint 1)
  { p with nextIndex := max (max retry (Counting.plus p.matchIndex 1)) 1 }

end Progress

end Consensus
