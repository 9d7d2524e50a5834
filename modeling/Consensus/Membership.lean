import Consensus.Entry
import Consensus.Quorum

/-!
# Membership

A cluster changes its members one server at a time. The committed members decide elections
and commitment; a change that is not yet committed only widens the set of peers that a leader
replicates to, so that an added server catches up before its change commits.
-/

namespace Consensus

/-- A membership change of one server, as an operator asks for it. -/
inductive ServerChange where
  | add (id : Nat)
  | remove (id : Nat)
deriving DecidableEq

/-- The change in words. -/
def ServerChange.describe : ServerChange → String
  | .add id => "add server " ++ toString id
  | .remove id => "remove server " ++ toString id

/-- The members after `change`. -/
def NodeSet.withChange (members : NodeSet) : ServerChange → NodeSet
  | .add id => members.insert id
  | .remove id => members.erase id

/-- Whether `change` would leave the members as they are. -/
def NodeSet.isUnchangedBy (members : NodeSet) : ServerChange → Bool
  | .add id => decide (id ∈ members)
  | .remove id => decide (id ∉ members)

/-- A change has no effect exactly when it leaves the members as they are. -/
theorem NodeSet.withChange_eq_self_iff {members : NodeSet} {change : ServerChange} :
    members.withChange change = members ↔ members.isUnchangedBy change = true := by
  cases change with
  | add id =>
    simp only [withChange, isUnchangedBy, decide_eq_true_eq]
    constructor
    · intro h
      rw [← h]
      simp
    · intro h
      apply NodeSet.ext
      intro y
      simp only [mem_insert]
      constructor
      · rintro (rfl | hy)
        · exact h
        · exact hy
      · exact Or.inr
  | remove id =>
    simp only [withChange, isUnchangedBy, decide_eq_true_eq]
    constructor
    · intro h
      rw [← h]
      simp
    · intro h
      apply NodeSet.ext
      intro y
      simp only [mem_erase]
      constructor
      · exact And.left
      · intro hy
        exact ⟨hy, fun hyid => h (hyid ▸ hy)⟩

/-- The committed members, and the latest uncommitted membership in the log, if any. -/
structure Membership where
  committed : NodeSet
  pending : Option (Nat × NodeSet)
deriving DecidableEq

namespace Membership

/-- Members with no change under way. -/
def settled (members : NodeSet) : Membership := ⟨members, none⟩

/-- A membership entry was appended at `index`. -/
def onAppend (m : Membership) (index : Nat) (members : NodeSet) : Membership :=
  { m with pending := some (index, members) }

/-- The membership entry at `index` committed: it takes over, and a pending change that is not
later than it is settled. -/
def onCommit (m : Membership) (index : Nat) (members : NodeSet) : Membership :=
  { committed := members, pending := m.pending.filter fun p => decide (index < p.1) }

/-- The last membership entry among `entries`, with its index. -/
def lastConfig? (entries : List Entry) : Option (Nat × NodeSet) :=
  (entries.filterMap fun e => e.config?.map fun members => (e.index, members)).getLast?

/-- Read the pending change off the entries that are not applied yet. An appended membership
entry becomes pending, a truncated one disappears. -/
def refreshPending (m : Membership) (unapplied : List Entry) : Membership :=
  { m with pending := lastConfig? unapplied }

/-- The peers that the leader `self` replicates to. -/
def replicationTargets (m : Membership) (self : Nat) : NodeSet :=
  let wide := match m.pending with
    | some (_, members) => m.committed.union members
    | none => m.committed
  wide.erase self

end Membership

end Consensus
