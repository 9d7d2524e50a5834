import Consensus.Proofs.Node.Course
import Consensus.Proofs.Table

/-!
# What is known of every peer

A leader starts with a peer knowing nothing of it but where to begin, and learns of it from
replies only.  So what is true at the start, and stays true whatever is learnt, is true of
every peer at any time.
-/

namespace Consensus.Node

variable {σ : Type} {n n' : Node σ} {event : Event} {P : Progress → Prop}

/-- True of a peer of which nothing is known, and of whatever comes to be known of it. -/
structure Lasting (P : Progress → Prop) : Prop where
  start (lastIndex : ℕ) : P (.start (lastIndex + 1))
  marked {p : Progress} (hp : P p) : P { p with inFlight := true }
  learns {batch : Batch} {response : Option Response} {change : Progress → Progress}
    (h : Learns batch response change) (p : Progress) (hp : P p) : P (change p)

/-- Whoever turns keeps its peers or gives them all up. -/
theorem every_turned (h : n.peers.Every P) (s : Standing) (disk : σ) :
    (n.turned s disk).peers.Every P := by
  unfold turned afterRoleChange
  split
  · exact h
  · exact Table.every_empty

theorem Commits.every (hcommits : Commits event n n') (h : n.peers.Every P) :
    n'.peers.Every P := by
  cases hcommits with
  | committed => exact h

section

variable (hstart : ∀ lastIndex, P (.start (lastIndex + 1)))
include hstart

theorem every_syncPeers (h : n.peers.Every P) (targets : NodeSet) (lastIndex : ℕ) :
    (n.syncPeers targets (lastIndex + 1)).peers.Every P :=
  (h.restrict _).insertAll (hstart lastIndex) _

theorem every_enact (h : n.peers.Every P) (entry : Entry) (index : ℕ) :
    (n.enact entry index).peers.Every P := by
  unfold Node.enact
  split
  · exact h
  · exact h
  · unfold adoptMembers
    dsimp only
    split
    · exact every_syncPeers hstart h _ _
    · exact h

theorem every_applyEntry (h : n.peers.Every P) (entry : Entry) (index : ℕ) :
    (n.applyEntry entry index).peers.Every P := by
  have hcommand : ∀ m : Node σ, m.peers.Every P →
      (m.answerCommand index entry.term).peers.Every P := by
    intro m hm
    unfold answerCommand
    split
    · exact hm
    · exact hm
  have hchange : ∀ m : Node σ, m.peers.Every P →
      (m.answerChange index entry.term).peers.Every P := by
    intro m hm
    unfold answerChange
    split
    · exact hm
    · exact hm
  exact hchange _ (hcommand _ (every_enact hstart h entry index))

end

namespace Lasting

variable (hP : Lasting P)
include hP

variable [Storage σ]

theorem opens (hopens : Opens event n n') (h : n.peers.Every P) :
    n'.peers.Every P := by
  cases hopens with
  | turned => exact every_turned h _ _
  | crowned => exact every_syncPeers hP.start Table.every_empty _ _
  | proposed => exact every_syncPeers hP.start h _ _
  | recorded hevent hrole hterm hlearns => exact h.modify _ (hP.learns hlearns)
  | waited => exact h
  | counted => exact h
  | noted => exact h
  | accepted => exact h
  | merged => exact h
  | refreshed => exact h
  | rebased => exact h

theorem closes (hcloses : Closes event n n') (h : n.peers.Every P) :
    n'.peers.Every P := by
  cases hcloses with
  | applied => exact every_applyEntry hP.start h _ _
  | retired => exact every_turned h _ _
  | dispatched => exact h.modify _ fun _ hp => hP.marked hp
  | announced => exact h
  | compacted => exact h
  | campaigned => exact h
  | answered => exact h

theorem course (hcourse : Course event n n') (h : n.peers.Every P) :
    n'.peers.Every P :=
  hcourse.keeps (I := fun m => m.peers.Every P) (fun _ _ => hP.opens)
    (fun _ _ hcommits => hcommits.every) (fun _ _ => hP.closes) h

end Lasting

end Consensus.Node
