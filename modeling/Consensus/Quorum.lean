import Consensus.NodeSet

/-!
# Majorities

The members of a configuration decide by majority. Elections count votes; commitment asks
for the highest index that a majority holds, read off the match indices in descending order.
-/

namespace Consensus.NodeSet

/-- How many members a decision needs. -/
def quorum (members : NodeSet) : Nat := members.size / 2 + 1

/-- Whether the members among `votes` are a majority; votes of others do not count. -/
def hasQuorum (members votes : NodeSet) : Bool :=
  decide (members.quorum ≤ members.toList.countP fun id => decide (id ∈ votes))

/-- The highest index that a majority of the members holds, each member holding everything up
to its match index; 0 when there are no members. -/
def quorumMatch (members : NodeSet) (matched : Nat → Nat) : Nat :=
  let descending := (members.toList.map matched).mergeSort fun a b => decide (b ≤ a)
  descending[members.quorum - 1]?.getD 0

end Consensus.NodeSet
