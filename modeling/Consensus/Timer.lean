/-!
# Election timeouts

A timeout is drawn anew for every election, so that split votes resolve themselves.
-/

namespace Consensus.Timer

/-- The timeout between `least` and `most` that a random draw selects. -/
def electionTimeout (least most draw : Nat) : Nat := least + draw % (most - least + 1)

theorem least_le_electionTimeout (least most draw : Nat) :
    least ≤ electionTimeout least most draw := Nat.le_add_right _ _

theorem electionTimeout_le_most {least most : Nat} (h : least ≤ most) (draw : Nat) :
    electionTimeout least most draw ≤ most := by
  have := Nat.mod_lt draw (show 0 < most - least + 1 by omega)
  unfold electionTimeout
  omega

end Consensus.Timer
