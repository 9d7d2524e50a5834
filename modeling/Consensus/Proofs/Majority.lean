import Consensus.Membership
import Mathlib.Data.Finset.Card
import Mathlib.Data.List.Sort
import Mathlib.Order.Bounds.Defs

/-!
# Majorities that meet

A decision needs a majority of the members.  Two majorities of one membership
share a member, and so do majorities of two memberships that differ in one
server.  The second fact is what lets a cluster change its members one server
at a time, and everything else about elections and commitment rests on it.

Elections count votes, and commitment looks up a position in the sorted match
indices.  Both decide by the same majority: more than half of the members.
-/

namespace Consensus

namespace NodeSet

/-- The members as a finite set. -/
def toFinset (members : NodeSet) : Finset ℕ := members.toList.toFinset

@[simp] theorem mem_toFinset {members : NodeSet} {id : ℕ} :
    id ∈ members.toFinset ↔ id ∈ members := by
  rw [toFinset, List.mem_toFinset, mem_toList]

theorem nodup_toList (members : NodeSet) : members.toList.Nodup :=
  members.ascending.imp fun h => Nat.ne_of_lt h

theorem card_toFinset (members : NodeSet) :
    members.toFinset.card = members.size :=
  List.toFinset_card_of_nodup members.nodup_toList

/-- Counting along the list is counting the members. -/
theorem card_filter_toFinset (members : NodeSet) (p : ℕ → Prop)
    [DecidablePred p] : (members.toFinset.filter p).card =
      members.toList.countP fun id => decide (p id) := by
  have hfilter : members.toFinset.filter p =
      (members.toList.filter fun id => decide (p id)).toFinset := by
    ext id
    simp [mem_toList]
  rw [hfilter, List.toFinset_card_of_nodup (members.nodup_toList.filter _),
    List.countP_eq_length_filter]

/-- A majority of the members satisfies `P`. -/
def Majority (members : NodeSet) (P : ℕ → Prop) : Prop :=
  ∃ holders : Finset ℕ, holders ⊆ members.toFinset ∧
    members.quorum ≤ holders.card ∧ ∀ id ∈ holders, P id

theorem Majority.mono {members : NodeSet} {P Q : ℕ → Prop}
    (hmajority : members.Majority P) (himp : ∀ id, P id → Q id) :
    members.Majority Q := by
  obtain ⟨holders, hsub, hcard, hall⟩ := hmajority
  exact ⟨holders, hsub, hcard, fun id hid => himp id (hall id hid)⟩

theorem Majority.exists_holder {members : NodeSet} {P : ℕ → Prop}
    (hmajority : members.Majority P) : ∃ id, P id := by
  obtain ⟨holders, -, hcard, hall⟩ := hmajority
  have hpos : 0 < holders.card := (Nat.succ_pos _).trans_le hcard
  obtain ⟨id, hid⟩ := Finset.card_pos.mp hpos
  exact ⟨id, hall id hid⟩

/-- Counting the members that satisfy a test gives a majority of them. -/
theorem majority_of_le_countP {members : NodeSet} {P : ℕ → Prop}
    [DecidablePred P]
    (hcount : members.quorum ≤ members.toList.countP fun id => decide (P id)) :
    members.Majority P := by
  refine ⟨members.toFinset.filter P, Finset.filter_subset _ _, ?_, ?_⟩
  · rw [card_filter_toFinset]
    exact hcount
  · intro id hid
    exact (Finset.mem_filter.mp hid).2

theorem majority_of_hasQuorum {members votes : NodeSet}
    (hquorum : members.hasQuorum votes = true) :
    members.Majority (· ∈ votes) := by
  rw [hasQuorum, decide_eq_true_eq] at hquorum
  exact majority_of_le_countP hquorum

/-! ## The index that a majority holds -/

/-- An item of a descending list is at least `m` exactly when more items are at
least `m` than stand before it. -/
theorem le_iff_lt_countP_of_descending {xs : List ℕ} {k x m : ℕ}
    (hsorted : xs.Pairwise fun a b => b ≤ a) (hk : xs[k]? = some x) :
    m ≤ x ↔ k < xs.countP fun y => decide (m ≤ y) := by
  induction xs generalizing k with
  | nil => simp at hk
  | cons y ys ih =>
      rw [List.pairwise_cons] at hsorted
      by_cases hhead : m ≤ y
      · rw [List.countP_cons_of_pos (by simpa using hhead)]
        cases k with
        | zero =>
            have hx : y = x := by simpa using hk
            subst hx
            simp [hhead]
        | succ k =>
            have hk' : ys[k]? = some x := by simpa using hk
            rw [ih hsorted.2 hk']
            omega
      · -- Below a head that is too small everything else is too small as well.
        have hnone : ∀ z ∈ y :: ys, ¬m ≤ z := by
          intro z hz
          rcases List.mem_cons.mp hz with rfl | hz
          · exact hhead
          · have := hsorted.1 z hz
            omega
        have hcount : (y :: ys).countP (fun z => decide (m ≤ z)) = 0 :=
          List.countP_eq_zero.mpr fun z hz => by simpa using hnone z hz
        have hx := hnone x (List.mem_of_getElem? hk)
        rw [hcount]
        omega

/-- Sorting by the reversed order leaves a descending list. -/
theorem descending_mergeSort (xs : List ℕ) :
    (xs.mergeSort fun a b => decide (b ≤ a)).Pairwise fun a b => b ≤ a := by
  have htrans : ∀ a b c : ℕ,
      decide (b ≤ a) = true → decide (c ≤ b) = true →
        decide (c ≤ a) = true := by
    intro a b c hab hbc
    simp only [decide_eq_true_eq] at hab hbc ⊢
    omega
  have htotal : ∀ a b : ℕ, (decide (b ≤ a) || decide (a ≤ b)) = true := by
    intro a b
    simp only [Bool.or_eq_true, decide_eq_true_eq]
    omega
  exact (List.pairwise_mergeSort htrans htotal xs).imp
    fun h => of_decide_eq_true h

/-- A quorum is more than half of the members. -/
theorem quorum_le_iff {members : NodeSet} {count : ℕ} :
    members.quorum ≤ count ↔ members.toFinset.card < 2 * count := by
  rw [card_toFinset, quorum]
  omega

theorem size_pos {members : NodeSet} (hne : members ≠ ∅) : 0 < members.size := by
  rcases members with ⟨_ | ⟨id, ids⟩, hascending⟩
  · exact absurd rfl hne
  · exact Nat.succ_pos _

theorem quorum_le_size {members : NodeSet} (hne : members ≠ ∅) :
    members.quorum ≤ members.size := by
  have hpos := size_pos hne
  unfold quorum
  omega

theorem quorumMatch_empty (matched : ℕ → ℕ) :
    (∅ : NodeSet).quorumMatch matched = 0 := by
  change (([] : List ℕ).mergeSort fun a b => decide (b ≤ a))[0]?.getD 0 = 0
  rw [List.mergeSort_nil]
  rfl

/-- The quorum match reaches an index exactly when as many members hold the
index as a decision needs. -/
theorem le_quorumMatch_iff {members : NodeSet} (hne : members ≠ ∅)
    {matched : ℕ → ℕ} {index : ℕ} :
    index ≤ members.quorumMatch matched ↔
      members.quorum ≤
        members.toList.countP fun id => decide (index ≤ matched id) := by
  let descending :=
    (members.toList.map matched).mergeSort fun a b => decide (b ≤ a)
  have hperm : descending.Perm (members.toList.map matched) :=
    List.mergeSort_perm _ _
  have hlength : descending.length = members.size := by
    rw [hperm.length_eq, List.length_map]
    rfl
  have hquorum : 0 < members.quorum := Nat.succ_pos _
  have hle := quorum_le_size hne
  obtain ⟨x, hx⟩ : ∃ x, descending[members.quorum - 1]? = some x :=
    ⟨_, List.getElem?_eq_getElem (by omega)⟩
  have hmatch : members.quorumMatch matched = x := by
    change descending[members.quorum - 1]?.getD 0 = x
    rw [hx, Option.getD_some]
  rw [hmatch, le_iff_lt_countP_of_descending (descending_mergeSort _) hx,
    hperm.countP_eq, List.countP_map]
  change members.quorum - 1 <
    members.toList.countP (fun id => decide (index ≤ matched id)) ↔ _
  omega

/-- A majority of the members holds every index up to the quorum match. -/
theorem majority_of_le_quorumMatch {members : NodeSet} {matched : ℕ → ℕ}
    {index : ℕ} (hpos : 0 < index)
    (hle : index ≤ members.quorumMatch matched) :
    members.Majority fun id => index ≤ matched id := by
  have hne : members ≠ ∅ := by
    rintro rfl
    rw [quorumMatch_empty] at hle
    omega
  exact majority_of_le_countP ((le_quorumMatch_iff hne).mp hle)

/-- The quorum match is not beyond what everyone holds at most. -/
theorem quorumMatch_le {members : NodeSet} {matched : ℕ → ℕ} {bound : ℕ}
    (hall : ∀ id, matched id ≤ bound) : members.quorumMatch matched ≤ bound := by
  by_contra hbeyond
  obtain ⟨id, hid⟩ := (majority_of_le_quorumMatch (Nat.succ_pos bound)
    (not_le.mp hbeyond)).exists_holder
  exact absurd (hid.trans (hall id)) (Nat.not_succ_le_self bound)

/-- Only the votes of members count. -/
theorem hasQuorum_iff {members votes : NodeSet} {P : ℕ → Prop} [DecidablePred P]
    (hvotes : ∀ id ∈ members, id ∈ votes ↔ P id) :
    members.hasQuorum votes = true ↔
      members.quorum ≤ members.toList.countP fun id => decide (P id) := by
  have hcount : members.toList.countP (fun id => decide (id ∈ votes)) =
      members.toList.countP fun id => decide (P id) :=
    List.countP_congr fun id hid => by simpa using hvotes id hid
  rw [hasQuorum, decide_eq_true_eq, hcount]

theorem hasQuorum_congr {members votes others : NodeSet}
    (hagree : ∀ id ∈ members, id ∈ votes ↔ id ∈ others) :
    members.hasQuorum votes = members.hasQuorum others := by
  rw [Bool.eq_iff_iff, hasQuorum_iff hagree, hasQuorum_iff fun _ _ => Iff.rfl]

/-- The quorum match reaches an index exactly when those who hold the index are a
quorum. -/
theorem le_quorumMatch_iff_hasQuorum {members votes : NodeSet}
    (hne : members ≠ ∅) {matched : ℕ → ℕ} {index : ℕ}
    (hvotes : ∀ id ∈ members, id ∈ votes ↔ index ≤ matched id) :
    index ≤ members.quorumMatch matched ↔ members.hasQuorum votes = true := by
  rw [le_quorumMatch_iff hne, hasQuorum_iff hvotes]

/-- Votes and match indices decide by the same majority.  The quorum match
reaches an index exactly when votes that come from the members who hold it are a
quorum, whoever else votes, and so it is the greatest index that more than half of
the members hold. -/
theorem isGreatest_quorumMatch {members : NodeSet} (hne : members ≠ ∅)
    (matched : ℕ → ℕ) :
    (∀ (index : ℕ) (votes : NodeSet),
      (∀ id ∈ members, id ∈ votes ↔ index ≤ matched id) →
        (index ≤ members.quorumMatch matched ↔
          members.hasQuorum votes = true)) ∧
      (∀ votes others : NodeSet,
        (∀ id ∈ members, id ∈ votes ↔ id ∈ others) →
          members.hasQuorum votes = members.hasQuorum others) ∧
      IsGreatest
        {index | members.toFinset.card <
          2 * (members.toFinset.filter fun id => index ≤ matched id).card}
        (members.quorumMatch matched) := by
  have hheld : ∀ index, members.toFinset.card <
      2 * (members.toFinset.filter fun id => index ≤ matched id).card ↔
        index ≤ members.quorumMatch matched := by
    intro index
    rw [le_quorumMatch_iff hne, quorum_le_iff, card_filter_toFinset]
  refine ⟨fun _ _ => le_quorumMatch_iff_hasQuorum hne,
    fun _ _ => hasQuorum_congr, ?_, ?_⟩
  · exact (hheld _).mpr le_rfl
  · intro index hindex
    exact (hheld index).mp hindex

/-- Among four members that hold 10, 8, 5 and 2, a quorum of three holds 5 and no
higher index; a vote of a server outside adds nothing. -/
theorem quorumMatch_of_four :
    NodeSet.ofList [1, 2, 3, 4] ≠ ∅ ∧
      (NodeSet.ofList [1, 2, 3, 4]).hasQuorum (.ofList [1, 2, 3]) = true ∧
      (NodeSet.ofList [1, 2, 3, 4]).hasQuorum (.ofList [1, 2, 9]) = false ∧
      (NodeSet.ofList [1, 2, 3, 4]).quorumMatch
        (fun id => [0, 10, 8, 5, 2][id]?.getD 0) = 5 := by
  have hne : NodeSet.ofList [1, 2, 3, 4] ≠ ∅ := by decide
  have hmatch := (isGreatest_quorumMatch hne
    fun id => [0, 10, 8, 5, 2][id]?.getD 0).1
  have hfive := hmatch 5 (.ofList [1, 2, 3]) (by decide)
  have hsix := hmatch 6 (.ofList [1, 2, 9]) (by decide)
  have hthree : (NodeSet.ofList [1, 2, 3, 4]).hasQuorum (.ofList [1, 2, 3]) =
      true := by decide
  have htwo : (NodeSet.ofList [1, 2, 3, 4]).hasQuorum (.ofList [1, 2, 9]) =
      false := by decide
  rw [hthree] at hfive
  rw [htwo] at hsix
  have hle := hfive.mpr rfl
  have hnot : ¬6 ≤ (NodeSet.ofList [1, 2, 3, 4]).quorumMatch
      fun id => [0, 10, 8, 5, 2][id]?.getD 0 := fun h => nomatch hsix.mp h
  exact ⟨hne, hthree, htwo, by omega⟩

/-! ## Memberships that differ in one server -/

/-- The two memberships agree on every server but at most one. -/
def Adjacent (members others : NodeSet) : Prop :=
  ∃ server, ∀ id, id ≠ server → (id ∈ members ↔ id ∈ others)

theorem Adjacent.refl (members : NodeSet) : Adjacent members members :=
  ⟨0, fun _ _ => Iff.rfl⟩

theorem Adjacent.symm {members others : NodeSet}
    (hadjacent : Adjacent members others) : Adjacent others members := by
  obtain ⟨server, hagree⟩ := hadjacent
  exact ⟨server, fun id hid => (hagree id hid).symm⟩

theorem adjacent_withChange (members : NodeSet) (change : ServerChange) :
    Adjacent members (members.withChange change) := by
  cases change with
  | add server =>
      refine ⟨server, fun id hid => ?_⟩
      simp [withChange, hid]
  | remove server =>
      refine ⟨server, fun id hid => ?_⟩
      simp [withChange, hid]

/-- The servers of two adjacent memberships are few enough that a quorum of
each leaves no room for them to be disjoint. -/
theorem Adjacent.card_union_lt_quorums {members others : NodeSet}
    (hadjacent : Adjacent members others) :
    (members.toFinset ∪ others.toFinset).card <
      members.quorum + others.quorum := by
  obtain ⟨server, hagree⟩ := hadjacent
  let common := members.toFinset.erase server
  have hothers : others.toFinset.erase server = common := by
    ext id
    simp only [common, Finset.mem_erase, mem_toFinset]
    constructor
    · rintro ⟨hne, hid⟩
      exact ⟨hne, (hagree id hne).mpr hid⟩
    · rintro ⟨hne, hid⟩
      exact ⟨hne, (hagree id hne).mp hid⟩
  have hmembers : common.card ≤ members.size := by
    rw [← card_toFinset]
    exact Finset.card_le_card (Finset.erase_subset _ _)
  have hsize : common.card ≤ others.size := by
    rw [← card_toFinset, ← hothers]
    exact Finset.card_le_card (Finset.erase_subset _ _)
  have hunion : (members.toFinset ∪ others.toFinset).erase server = common := by
    rw [Finset.erase_union_distrib, hothers]
    exact Finset.union_self common
  unfold quorum
  by_cases hserver : server ∈ members.toFinset ∪ others.toFinset
  · have hcard := Finset.card_erase_add_one hserver
    rw [hunion] at hcard
    rcases Finset.mem_union.mp hserver with hin | hin
    · have hone := Finset.card_erase_add_one hin
      rw [card_toFinset] at hone
      change common.card + 1 = members.size at hone
      omega
    · have hone := Finset.card_erase_add_one hin
      rw [card_toFinset, hothers] at hone
      omega
  · rw [Finset.erase_eq_of_notMem hserver] at hunion
    rw [hunion]
    omega

/-- Majorities of adjacent memberships share a server. -/
theorem Majority.overlap {members others : NodeSet} {P Q : ℕ → Prop}
    (hP : members.Majority P) (hadjacent : Adjacent members others)
    (hQ : others.Majority Q) : ∃ id, P id ∧ Q id := by
  obtain ⟨left, hleft, hleftCard, hleftAll⟩ := hP
  obtain ⟨right, hright, hrightCard, hrightAll⟩ := hQ
  have hmeet : (left ∩ right).Nonempty := by
    rw [Finset.nonempty_iff_ne_empty]
    intro hempty
    have hdisjoint : Disjoint left right :=
      Finset.disjoint_iff_inter_eq_empty.mpr hempty
    have hcard := Finset.card_union_of_disjoint hdisjoint
    have hle : (left ∪ right).card ≤
        (members.toFinset ∪ others.toFinset).card :=
      Finset.card_le_card (Finset.union_subset_union hleft hright)
    have hlt := hadjacent.card_union_lt_quorums
    omega
  obtain ⟨id, hid⟩ := hmeet
  rw [Finset.mem_inter] at hid
  exact ⟨id, hleftAll id hid.1, hrightAll id hid.2⟩

/-- A majority is one among the members. -/
theorem Majority.among {members : NodeSet} {P : ℕ → Prop}
    (hmajority : members.Majority P) :
    members.Majority fun id => id ∈ members ∧ P id := by
  obtain ⟨holders, hsub, hcard, hall⟩ := hmajority
  exact ⟨holders, hsub, hcard,
    fun id hid => ⟨mem_toFinset.mp (hsub hid), hall id hid⟩⟩

/-- Quorums of the members before and after a change of one server share a server
that is a member before and after. -/
theorem quorums_meet_across_change {members votes others : NodeSet}
    {change : ServerChange} (hvotes : members.hasQuorum votes = true)
    (hothers : (members.withChange change).hasQuorum others = true) :
    ∃ id, id ∈ votes ∧ id ∈ others ∧ id ∈ members ∧
      id ∈ members.withChange change := by
  obtain ⟨id, ⟨hmember, hvote⟩, hremains, hother⟩ :=
    (majority_of_hasQuorum hvotes).among.overlap
      (adjacent_withChange members change)
      (majority_of_hasQuorum hothers).among
  exact ⟨id, hvote, hother, hmember, hremains⟩

/-- Three of four members, and three of the five after a server joined: the two
quorums share no more than one server. -/
theorem quorums_meet_when_fifth_joins :
    (NodeSet.ofList [1, 2, 3, 4]).hasQuorum (.ofList [1, 2, 3]) = true ∧
      ((NodeSet.ofList [1, 2, 3, 4]).withChange (.add 5)).hasQuorum
        (.ofList [3, 4, 5]) = true ∧
      ∃ id, id ∈ NodeSet.ofList [1, 2, 3] ∧ id ∈ NodeSet.ofList [3, 4, 5] ∧
        id ∈ NodeSet.ofList [1, 2, 3, 4] ∧
        id ∈ (NodeSet.ofList [1, 2, 3, 4]).withChange (.add 5) :=
  ⟨by decide, by decide,
    quorums_meet_across_change (by decide) (by decide)⟩

end NodeSet

end Consensus
