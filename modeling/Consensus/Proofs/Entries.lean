import Consensus.Log
import Consensus.Recorder
import Consensus.Proofs.Majority
import Mathlib.Data.List.Infix

/-!
# What a list of entries amounts to

A log that keeps everything determines the membership in force after it, the
record of a consumer that has applied it, and the term at every index.  The
functions here read these off a list of entries.  They say nothing about any
node; later modules compare nodes with them.
-/

namespace Consensus

/-! ## Prefixes -/

/-- A prefix is what the longer list starts with. -/
theorem take_length_of_isPrefix {α : Type} {xs ys : List α}
    (h : xs <+: ys) : ys.take xs.length = xs :=
  (List.prefix_iff_eq_take.mp h).symm

/-- Taking what a prefix still covers from either list gives the same. -/
theorem take_eq_of_isPrefix {α : Type} {xs ys : List α} {n : ℕ}
    (h : xs <+: ys) (hn : n ≤ xs.length) : ys.take n = xs.take n := by
  obtain ⟨rest, rfl⟩ := h
  exact List.take_append_of_le_length hn

/-- Two prefixes of one list, the shorter one first. -/
theorem isPrefix_of_length_le {α : Type} {xs ys zs : List α}
    (hx : xs <+: zs) (hy : ys <+: zs) (hle : xs.length ≤ ys.length) :
    xs <+: ys :=
  List.prefix_of_prefix_length_le hx hy hle

/-! ## Numbers and terms -/

/-- The entries carry the indices 1, 2, 3 and so on. -/
def Numbered (entries : List Entry) : Prop :=
  ∀ k entry, entries[k]? = some entry → entry.index = k + 1

theorem Numbered.of_isPrefix {xs ys : List Entry} (hys : Numbered ys)
    (h : xs <+: ys) : Numbered xs := by
  intro k entry hk
  obtain ⟨rest, rfl⟩ := h
  have hlt : k < xs.length := List.getElem?_eq_some_iff.mp hk |>.1
  exact hys k entry (by rw [List.getElem?_append_left hlt, hk])

theorem Numbered.append_single {entries : List Entry} {entry : Entry}
    (hentries : Numbered entries) (hindex : entry.index = entries.length + 1) :
    Numbered (entries ++ [entry]) := by
  intro k e hk
  rcases Nat.lt_trichotomy k entries.length with hlt | heq | hgt
  · rw [List.getElem?_append_left hlt] at hk
    exact hentries k e hk
  · subst heq
    have he : entry = e := by simpa using hk
    rw [← he, hindex]
  · rw [List.getElem?_eq_none (by simp; omega)] at hk
    exact absurd hk (by simp)

/-- The term at an index of a log that keeps everything; before the first
entry it is 0. -/
def termAt (entries : List Entry) (index : ℕ) : Option ℕ :=
  if index = 0 then some 0 else entries[index - 1]?.map (·.term)

@[simp] theorem termAt_zero (entries : List Entry) :
    termAt entries 0 = some 0 := rfl

theorem termAt_succ (entries : List Entry) (k : ℕ) :
    termAt entries (k + 1) = entries[k]?.map (·.term) := rfl

theorem termAt_eq_of_isPrefix {xs ys : List Entry} {index : ℕ}
    (h : xs <+: ys) (hle : index ≤ xs.length) :
    termAt ys index = termAt xs index := by
  cases index with
  | zero => rfl
  | succ k =>
      rw [termAt_succ, termAt_succ]
      congr 1
      obtain ⟨rest, rfl⟩ := h
      exact List.getElem?_append_left hle

theorem termAt_isSome_iff {entries : List Entry} {index : ℕ} :
    (termAt entries index).isSome ↔ index ≤ entries.length := by
  cases index with
  | zero => simp
  | succ k =>
      rw [termAt_succ, Option.isSome_map, ← Option.ne_none_iff_isSome, Ne,
        List.getElem?_eq_none_iff]
      omega

/-- The term of the last entry, 0 if there is none. -/
def lastTerm (entries : List Entry) : ℕ :=
  (entries.getLast?.map (·.term)).getD 0

/-- The last entry is of the given term. -/
def EndsIn (term : ℕ) (entries : List Entry) : Prop :=
  ∃ entry, entries.getLast? = some entry ∧ entry.term = term

theorem EndsIn.ne_nil {term : ℕ} {entries : List Entry}
    (h : EndsIn term entries) : entries ≠ [] := by
  rintro rfl
  obtain ⟨entry, hentry, -⟩ := h
  simp at hentry

theorem endsIn_take {entries : List Entry} {index term : ℕ} (hpos : 0 < index)
    (h : termAt entries index = some term) : EndsIn term (entries.take index) := by
  have hle : index ≤ entries.length := termAt_isSome_iff.mp (by simp [h])
  obtain ⟨k, rfl⟩ := Nat.exists_eq_add_of_lt hpos
  rw [Nat.zero_add, termAt_succ, Option.map_eq_some_iff] at h
  obtain ⟨entry, hk, hterm⟩ := h
  refine ⟨entry, ?_, hterm⟩
  rw [List.getLast?_eq_getElem?, List.length_take, Nat.min_eq_left hle,
    List.getElem?_take_of_lt (by omega)]
  simpa using hk

theorem endsIn_lastTerm {entries : List Entry} (h : entries ≠ []) :
    EndsIn (lastTerm entries) entries := by
  obtain ⟨entry, hentry⟩ := List.getLast?_isSome.mpr h |> Option.isSome_iff_exists.mp
  exact ⟨entry, hentry, by simp [lastTerm, hentry]⟩

/-! ## The membership in force -/

/-- The membership in force after the entries, `base` being the one before
the first of them. -/
def membersAfter (base : NodeSet) (entries : List Entry) : NodeSet :=
  entries.foldl (fun members entry => entry.config?.getD members) base

@[simp] theorem membersAfter_nil (base : NodeSet) :
    membersAfter base [] = base := rfl

theorem membersAfter_append (base : NodeSet) (xs ys : List Entry) :
    membersAfter base (xs ++ ys) = membersAfter (membersAfter base xs) ys :=
  List.foldl_append

theorem membersAfter_append_single (base : NodeSet) (entries : List Entry)
    (entry : Entry) : membersAfter base (entries ++ [entry]) =
      entry.config?.getD (membersAfter base entries) := by
  rw [membersAfter_append]
  rfl

/-- The number of entries that carry a membership. -/
def changes (entries : List Entry) : ℕ :=
  entries.countP fun entry => entry.config?.isSome

@[simp] theorem changes_nil : changes [] = 0 := rfl

theorem changes_append (xs ys : List Entry) :
    changes (xs ++ ys) = changes xs + changes ys :=
  List.countP_append

theorem changes_single (entry : Entry) :
    changes [entry] = if entry.config?.isSome then 1 else 0 := by
  rw [changes, List.countP_singleton]

theorem changes_cons_of_none {entry : Entry} {entries : List Entry}
    (h : entry.config? = none) : changes (entry :: entries) = changes entries := by
  rw [changes, List.countP_cons_of_neg (by simp [h])]
  rfl

theorem changes_le_of_sublist {xs ys : List Entry} (h : xs.Sublist ys) :
    changes xs ≤ changes ys :=
  h.countP_le

/-- Dropping more leaves no more changes. -/
theorem changes_drop_le {entries : List Entry} {m n : ℕ} (h : m ≤ n) :
    changes (entries.drop n) ≤ changes (entries.drop m) := by
  obtain ⟨k, rfl⟩ := Nat.exists_eq_add_of_le h
  rw [← List.drop_drop]
  exact changes_le_of_sublist (List.drop_sublist _ _)

/-- A prefix has no more changes beyond a point than the longer list. -/
theorem changes_drop_le_of_isPrefix {xs ys : List Entry} {n : ℕ}
    (h : xs <+: ys) : changes (xs.drop n) ≤ changes (ys.drop n) := by
  obtain ⟨rest, rfl⟩ := h
  rw [List.drop_append]
  exact changes_le_of_sublist (List.sublist_append_left _ _)

theorem membersAfter_of_changes_eq_zero {base : NodeSet} {entries : List Entry}
    (h : changes entries = 0) : membersAfter base entries = base := by
  induction entries with
  | nil => rfl
  | cons entry entries ih =>
      rw [changes, List.countP_cons] at h
      have hentry : entry.config? = none := by
        cases hconfig : entry.config? with
        | none => rfl
        | some members => simp [hconfig] at h
      have hrest : changes entries = 0 := by
        unfold changes
        omega
      rw [membersAfter, List.foldl_cons, hentry]
      exact ih hrest

/-- Where no change follows, the membership is the one in force already. -/
theorem membersAfter_take {base : NodeSet} {entries : List Entry} {n : ℕ}
    (h : changes (entries.drop n) = 0) :
    membersAfter base (entries.take n) = membersAfter base entries := by
  have hsplit := membersAfter_append base (entries.take n) (entries.drop n)
  rw [List.take_append_drop, membersAfter_of_changes_eq_zero h] at hsplit
  exact hsplit.symm

/-- The first change of a list that has one. -/
theorem exists_first_change {entries : List Entry}
    (h : 0 < changes entries) :
    ∃ before entry after members, entries = before ++ entry :: after ∧
      entry.config? = some members ∧ changes before = 0 := by
  induction entries with
  | nil => simp at h
  | cons entry entries ih =>
      cases hconfig : entry.config? with
      | some members =>
          exact ⟨[], entry, entries, members, rfl, hconfig, rfl⟩
      | none =>
          have hrest : 0 < changes entries := by
            rwa [changes_cons_of_none hconfig] at h
          obtain ⟨before, found, after, members, rfl, hfound, hzero⟩ := ih hrest
          refine ⟨entry :: before, found, after, members, rfl, hfound, ?_⟩
          rw [changes_cons_of_none hconfig, hzero]

/-- Every membership in the list comes from the one before it by a change of
one server. -/
def Chained (base : NodeSet) (entries : List Entry) : Prop :=
  ∀ before entry after members, entries = before ++ entry :: after →
    entry.config? = some members →
      ∃ change, members = (membersAfter base before).withChange change

theorem Chained.of_isPrefix {base : NodeSet} {xs ys : List Entry}
    (hys : Chained base ys) (h : xs <+: ys) : Chained base xs := by
  obtain ⟨rest, rfl⟩ := h
  rintro before entry after members rfl hconfig
  exact hys before entry (after ++ rest) members (by simp) hconfig

theorem Chained.append_single {base : NodeSet} {entries : List Entry}
    {entry : Entry} (hentries : Chained base entries)
    (hentry : ∀ members, entry.config? = some members →
      ∃ change, members = (membersAfter base entries).withChange change) :
    Chained base (entries ++ [entry]) := by
  intro before e after members hsplit hconfig
  rcases List.eq_nil_or_concat after with rfl | ⟨rest, last, rfl⟩
  · obtain ⟨rfl, he⟩ := List.append_inj' hsplit rfl
    have he' : entry = e := by simpa using he
    subst he'
    exact hentry members hconfig
  · have hassoc : entries ++ [entry] = (before ++ e :: rest) ++ [last] := by
      rw [hsplit]
      simp
    obtain ⟨rfl, -⟩ := List.append_inj' hassoc rfl
    exact hentries before e rest members rfl hconfig

/-- A list with at most one change more has a membership next to it. -/
theorem Chained.adjacent {base : NodeSet} {xs ys : List Entry}
    (hchained : Chained base ys) (hle : xs <+: ys)
    (h : changes (ys.drop xs.length) ≤ 1) :
    NodeSet.Adjacent (membersAfter base xs) (membersAfter base ys) := by
  obtain ⟨rest, rfl⟩ := hle
  rw [List.drop_left] at h
  rw [membersAfter_append]
  rcases Nat.eq_zero_or_pos (changes rest) with hzero | hpos
  · rw [membersAfter_of_changes_eq_zero hzero]
    exact NodeSet.Adjacent.refl _
  · obtain ⟨before, entry, after, members, rfl, hconfig, hbefore⟩ :=
      exists_first_change hpos
    have hafter : changes after = 0 := by
      rw [changes_append, ← List.singleton_append, changes_append,
        changes_single, hconfig] at h
      simp only [Option.isSome_some, if_true] at h
      omega
    obtain ⟨change, hchange⟩ :=
      hchained (xs ++ before) entry after members (by simp) hconfig
    rw [membersAfter_append base xs before,
      membersAfter_of_changes_eq_zero hbefore] at hchange
    have hresult :
        membersAfter (membersAfter base xs) (before ++ entry :: after) =
          members := by
      rw [membersAfter_append, membersAfter_of_changes_eq_zero hbefore,
        membersAfter, List.foldl_cons, hconfig]
      exact membersAfter_of_changes_eq_zero hafter
    rw [hresult, hchange]
    exact NodeSet.adjacent_withChange _ change

/-! ## The record of a consumer -/

/-- A consumer that has recorded `record` applies one more entry. -/
def Record.add (record : Record) (entry : Entry) : Record :=
  match entry.payload with
  | .command bytes => ⟨record.entries ++ [(entry.index, bytes)], entry.index⟩
  | _ => record

/-- What a consumer has recorded that applied exactly these entries. -/
def recordAfter (entries : List Entry) : Record :=
  entries.foldl Record.add {}

@[simp] theorem recordAfter_nil : recordAfter [] = {} := rfl

theorem recordAfter_append_single (entries : List Entry) (entry : Entry) :
    recordAfter (entries ++ [entry]) = (recordAfter entries).add entry := by
  rw [recordAfter, List.foldl_append]
  rfl

theorem recordAfter_lastApplied_le {entries : List Entry}
    (h : Numbered entries) : (recordAfter entries).lastApplied ≤ entries.length := by
  induction entries using List.reverseRecOn with
  | nil => exact Nat.zero_le _
  | append_singleton entries entry ih =>
      have hrest := ih (h.of_isPrefix (List.prefix_append _ _))
      have hindex : entry.index = entries.length + 1 :=
        h entries.length entry (by simp)
      rw [recordAfter_append_single, List.length_append]
      unfold Record.add
      split
      · exact hindex.le
      · exact hrest.trans (Nat.le_add_right _ _)

/-- A record holds the commands among the entries, with their indices. -/
theorem mem_recordAfter_iff {entries : List Entry} {index : ℕ}
    {command : Bytes} : (index, command) ∈ (recordAfter entries).entries ↔
      ∃ entry ∈ entries, entry.index = index ∧
        entry.payload = .command command := by
  induction entries using List.reverseRecOn with
  | nil => simp
  | append_singleton entries entry ih =>
      rw [recordAfter_append_single]
      unfold Record.add
      cases hpayload : entry.payload with
      | command bytes => simp [ih, or_and_right, exists_or, hpayload, eq_comm]
      | noop => simp [ih, or_and_right, exists_or, hpayload]
      | config members => simp [ih, or_and_right, exists_or, hpayload]

/-- Applying more entries only adds to the record. -/
theorem recordAfter_entries_isPrefix (xs ys : List Entry) :
    (recordAfter xs).entries <+: (recordAfter (xs ++ ys)).entries := by
  induction ys using List.reverseRecOn with
  | nil => rw [List.append_nil]
  | append_singleton ys entry ih =>
      rw [← List.append_assoc, recordAfter_append_single]
      refine ih.trans ?_
      unfold Record.add
      split
      · exact List.prefix_append _ _
      · exact List.prefix_rfl

end Consensus
