import Consensus.Proofs.Log
import Mathlib.Data.List.Basic

/-!
# Logs without gaps

The entries of a log carry the indices that follow its boundary.  Then an entry
is found under its own index, and the log ends where its entries do.

Whatever a node does to its log puts other entries after an index or drops what a
snapshot covers, and leaves the log without a gap.  What a leader sends joins the
log after an index that the log keeps, whatever terms the entries have: they are
compared one by one, up to the first that is not there.
-/

namespace Consensus

/-! ## Numbered entries -/

/-- The entries carry the indices that follow `base`. -/
def NumberedFrom (base : ℕ) (entries : List Entry) : Prop :=
  ∀ k entry, entries[k]? = some entry → entry.index = base + k + 1

theorem NumberedFrom.head {base : ℕ} {entry : Entry} {entries : List Entry}
    (h : NumberedFrom base (entry :: entries)) : entry.index = base + 1 :=
  h 0 entry rfl

theorem NumberedFrom.tail {base : ℕ} {entry : Entry} {entries : List Entry}
    (h : NumberedFrom base (entry :: entries)) :
    NumberedFrom (base + 1) entries := by
  intro k found hk
  have hindex := h (k + 1) found (by simpa using hk)
  omega

theorem NumberedFrom.nil (base : ℕ) : NumberedFrom base [] :=
  fun _ _ hk => absurd hk (by simp)

theorem NumberedFrom.cons {base : ℕ} {entry : Entry} {entries : List Entry}
    (hindex : entry.index = base + 1) (h : NumberedFrom (base + 1) entries) :
    NumberedFrom base (entry :: entries) := by
  intro k found hk
  cases k with
  | zero =>
      obtain rfl : entry = found := by simpa using hk
      exact hindex
  | succ k =>
      have hfound := h k found (by simpa using hk)
      omega

theorem NumberedFrom.append {base : ℕ} {xs ys : List Entry}
    (hxs : NumberedFrom base xs) (hys : NumberedFrom (base + xs.length) ys) :
    NumberedFrom base (xs ++ ys) := by
  induction xs generalizing base with
  | nil => exact hys
  | cons x xs ih =>
      refine .cons hxs.head (ih hxs.tail ?_)
      rwa [List.length_cons, Nat.add_comm xs.length, ← Nat.add_assoc] at hys

theorem NumberedFrom.take {base : ℕ} {entries : List Entry}
    (h : NumberedFrom base entries) (count : ℕ) :
    NumberedFrom base (entries.take count) := by
  intro k entry hk
  rw [List.getElem?_take] at hk
  split at hk
  · exact h k entry hk
  · exact absurd hk (by simp)

theorem NumberedFrom.skip {base : ℕ} {entries : List Entry}
    (h : NumberedFrom base entries) (count : ℕ) :
    NumberedFrom (base + count) (entries.drop count) := by
  intro k entry hk
  rw [List.getElem?_drop] at hk
  have hindex := h (count + k) entry hk
  omega

/-- The index of an entry is within the entries. -/
theorem NumberedFrom.index_of_mem {base : ℕ} {entries : List Entry}
    (h : NumberedFrom base entries) {entry : Entry} (hentry : entry ∈ entries) :
    base < entry.index ∧ entry.index ≤ base + entries.length ∧
      entries[entry.index - base - 1]? = some entry := by
  obtain ⟨k, hk⟩ := List.mem_iff_getElem?.mp hentry
  have hindex := h k entry hk
  have hlength := (List.getElem?_eq_some_iff.mp hk).1
  refine ⟨by omega, by omega, ?_⟩
  rw [hindex, show base + k + 1 - base - 1 = k by omega]
  exact hk

theorem NumberedFrom.filter_index_lt {base : ℕ} {entries : List Entry}
    (h : NumberedFrom base entries) (index : ℕ) :
    (entries.filter fun e => decide (e.index < index)) =
      entries.take (index - base - 1) := by
  induction entries generalizing base with
  | nil => simp
  | cons entry entries ih =>
      have hhead := h.head
      rw [List.filter_cons, ih h.tail]
      by_cases hlt : entry.index < index
      · have hcount : index - base - 1 = index - (base + 1) - 1 + 1 := by omega
        rw [if_pos (by simpa using hlt), hcount, List.take_succ_cons]
      · have hzero : index - base - 1 = 0 := by omega
        have hzero' : index - (base + 1) - 1 = 0 := by omega
        rw [if_neg (by simpa using hlt), hzero, hzero', List.take_zero,
          List.take_zero]

theorem NumberedFrom.filter_lt_index {base : ℕ} {entries : List Entry}
    (h : NumberedFrom base entries) (index : ℕ) :
    (entries.filter fun e => decide (index < e.index)) =
      entries.drop (index - base) := by
  induction entries generalizing base with
  | nil => simp
  | cons entry entries ih =>
      have hhead := h.head
      rw [List.filter_cons, ih h.tail]
      by_cases hlt : index < entry.index
      · have hzero : index - base = 0 := by omega
        have hzero' : index - (base + 1) = 0 := by omega
        rw [if_pos (by simpa using hlt), hzero, hzero', List.drop_zero,
          List.drop_zero]
      · have hcount : index - base = index - (base + 1) + 1 := by omega
        rw [if_neg (by simpa using hlt), hcount, List.drop_succ_cons]

theorem NumberedFrom.takeWhile_index_le {base : ℕ} {entries : List Entry}
    (h : NumberedFrom base entries) (index : ℕ) :
    (entries.takeWhile fun e => decide (e.index ≤ index)) =
      entries.take (index - base) := by
  induction entries generalizing base with
  | nil => simp
  | cons entry entries ih =>
      have hhead := h.head
      rw [List.takeWhile_cons, ih h.tail]
      by_cases hle : entry.index ≤ index
      · have hcount : index - base = index - (base + 1) + 1 := by omega
        rw [if_pos (by simpa using hle), hcount, List.take_succ_cons]
      · have hzero : index - base = 0 := by omega
        rw [if_neg (by simpa using hle), hzero, List.take_zero]

/-- What comes after the first entries up to an index are all those beyond it. -/
theorem NumberedFrom.filter_eq_drop {base : ℕ} {entries : List Entry}
    (h : NumberedFrom base (entries.drop
      (entries.takeWhile fun e => decide (e.index ≤ base)).length)) :
    (entries.filter fun e => decide (base < e.index)) =
      entries.drop (entries.takeWhile fun e => decide (e.index ≤ base)).length := by
  induction entries with
  | nil => rfl
  | cons entry entries ih =>
      rw [List.takeWhile_cons] at h ⊢
      by_cases hle : entry.index ≤ base
      · rw [if_pos (by simpa using hle), List.length_cons, List.drop_succ_cons] at h ⊢
        rw [List.filter_cons_of_neg (by simpa using hle)]
        exact ih h
      · rw [if_neg (by simpa using hle), List.length_nil, List.drop_zero] at h ⊢
        rw [h.filter_lt_index, Nat.sub_self, List.drop_zero]

namespace Log

variable {log : Log} {index term kept : ℕ} {entry : Entry} {fresh : List Entry}

theorem get?_of_lt (hlt : log.snapshotIndex < index) :
    log.get? index = log.entries[index - log.snapshotIndex - 1]? := by
  unfold get?
  rw [if_neg hlt.not_ge]

/-- The log has what a list has beyond the boundary. -/
theorem get?_of_drop {all : List Entry} (hentries : log.entries = all.drop log.snapshotIndex)
    (hlt : log.snapshotIndex < index) : log.get? index = all[index - 1]? := by
  rw [get?_of_lt hlt, hentries, List.getElem?_drop]
  congr 1
  omega

theorem termAt?_eq_get? (hlt : log.snapshotIndex < index) :
    log.termAt? index = (log.get? index).map (·.term) := by
  rw [termAt?_of_lt hlt, get?_of_lt hlt]

/-- The log knows a term at its boundary. -/
theorem termAt?_boundary (log : Log) :
    ∃ term, log.termAt? log.snapshotIndex = some term := by
  unfold termAt?
  by_cases hzero : log.snapshotIndex = 0
  · exact ⟨0, if_pos hzero⟩
  · exact ⟨log.snapshotTerm, (if_neg hzero).trans (if_pos rfl)⟩

/-! ## Entries and their indices -/

/-- Nothing is missing between the boundary and the last entry. -/
def Gapless (log : Log) : Prop := NumberedFrom log.snapshotIndex log.entries

theorem gapless_base (index term : ℕ) : Gapless ⟨[], index, term⟩ := .nil index

/-- An entry that is found is in the log. -/
theorem mem_of_get? (hget : log.get? index = some entry) :
    entry ∈ log.entries := by
  unfold get? at hget
  split at hget
  · exact absurd hget (by simp)
  · exact List.mem_of_getElem? hget

namespace Gapless

theorem lastIndex_eq (h : log.Gapless) :
    log.lastIndex = log.snapshotIndex + log.entries.length := by
  unfold lastIndex
  rw [List.getLast?_eq_getElem?]
  cases hlast : log.entries[log.entries.length - 1]? with
  | none =>
      have hlength := List.getElem?_eq_none_iff.mp hlast
      change log.snapshotIndex = _
      omega
  | some entry =>
      have hindex := h _ entry hlast
      have hlength := (List.getElem?_eq_some_iff.mp hlast).1
      change entry.index = _
      omega

theorem boundary_le_last (h : log.Gapless) :
    log.snapshotIndex ≤ log.lastIndex := by
  rw [h.lastIndex_eq]
  exact Nat.le_add_right _ _

/-- An entry is found after the boundary, up to the end, under its own index. -/
theorem range_of_get? (h : log.Gapless) (hget : log.get? index = some entry) :
    log.snapshotIndex < index ∧ index ≤ log.lastIndex ∧ entry.index = index := by
  unfold get? at hget
  split at hget
  · exact absurd hget (by simp)
  · next hlt =>
    have hindex := h _ entry hget
    have hlength := (List.getElem?_eq_some_iff.mp hget).1
    rw [h.lastIndex_eq]
    omega

theorem exists_get? (h : log.Gapless) (hlt : log.snapshotIndex < index)
    (hle : index ≤ log.lastIndex) : ∃ entry, log.get? index = some entry := by
  rw [h.lastIndex_eq] at hle
  rw [get?_of_lt hlt]
  exact ⟨_, List.getElem?_eq_getElem (by omega)⟩

theorem get?_of_mem (h : log.Gapless) (hentry : entry ∈ log.entries) :
    log.get? entry.index = some entry := by
  obtain ⟨hlt, -, hat⟩ := h.index_of_mem hentry
  rw [get?_of_lt hlt]
  exact hat

theorem le_lastIndex_of_termAt? (h : log.Gapless)
    (hlt : log.snapshotIndex < index) (hterm : log.termAt? index = some term) :
    index ≤ log.lastIndex := by
  rw [termAt?_eq_get? hlt] at hterm
  obtain ⟨entry, hentry, -⟩ := Option.map_eq_some_iff.mp hterm
  exact (h.range_of_get? hentry).2.1

theorem lastIndex_lt_of_termAt? (h : log.Gapless)
    (hle : log.snapshotIndex ≤ index) (hterm : log.termAt? index = none) :
    log.lastIndex < index := by
  by_contra hlast
  rcases hle.eq_or_lt with rfl | hlt
  · obtain ⟨term, hboundary⟩ := log.termAt?_boundary
    exact absurd (hterm.symm.trans hboundary) (by simp)
  · obtain ⟨entry, hentry⟩ := h.exists_get? hlt (not_lt.mp hlast)
    rw [termAt?_eq_get? hlt, hentry] at hterm
    exact absurd hterm (by simp)

end Gapless

/-! ## Replacing what comes after an index -/

/-- The log with other entries after the index that it keeps. -/
def splice (log : Log) (kept : ℕ) (fresh : List Entry) : Log :=
  { log with
    entries := log.entries.take (kept - log.snapshotIndex) ++ fresh }

@[simp] theorem snapshotIndex_splice (log : Log) (kept : ℕ) (fresh : List Entry) :
    (log.splice kept fresh).snapshotIndex = log.snapshotIndex := rfl

@[simp] theorem snapshotTerm_splice (log : Log) (kept : ℕ) (fresh : List Entry) :
    (log.splice kept fresh).snapshotTerm = log.snapshotTerm := rfl

/-- The entries may be put after the index: they are numbered from there. -/
structure Adjoins (log : Log) (kept : ℕ) (fresh : List Entry) : Prop where
  boundary_le : log.snapshotIndex ≤ kept
  le_last : kept ≤ log.lastIndex
  numbered : NumberedFrom kept fresh

namespace Gapless

theorem length_take_kept (h : log.Gapless) (hlast : kept ≤ log.lastIndex) :
    (log.entries.take (kept - log.snapshotIndex)).length =
      kept - log.snapshotIndex := by
  rw [h.lastIndex_eq] at hlast
  rw [List.length_take]
  omega

theorem splice (h : log.Gapless) (hadjoins : log.Adjoins kept fresh) :
    (log.splice kept fresh).Gapless := by
  refine (h.take _).append ?_
  have hle := hadjoins.boundary_le
  rw [h.length_take_kept hadjoins.le_last]
  change NumberedFrom (log.snapshotIndex + (kept - log.snapshotIndex)) fresh
  rw [Nat.add_sub_cancel' hle]
  exact hadjoins.numbered

theorem lastIndex_splice (h : log.Gapless) (hadjoins : log.Adjoins kept fresh) :
    (log.splice kept fresh).lastIndex = kept + fresh.length := by
  have hle := hadjoins.boundary_le
  rw [(h.splice hadjoins).lastIndex_eq]
  change log.snapshotIndex +
    (log.entries.take (kept - log.snapshotIndex) ++ fresh).length = _
  rw [List.length_append, h.length_take_kept hadjoins.le_last]
  omega

/-- Up to the index the log stays what it was. -/
theorem get?_splice (h : log.Gapless) (hlast : kept ≤ log.lastIndex)
    (hle : index ≤ kept) (fresh : List Entry) :
    (log.splice kept fresh).get? index = log.get? index := by
  have hlength := h.length_take_kept hlast
  unfold get?
  rw [snapshotIndex_splice]
  split
  · rfl
  · change (log.entries.take (kept - log.snapshotIndex) ++ fresh)[_]? = _
    rw [List.getElem?_append_left (by omega), List.getElem?_take_of_lt (by omega)]

theorem termAt?_splice (h : log.Gapless) (hlast : kept ≤ log.lastIndex)
    (hle : index ≤ kept) (fresh : List Entry) :
    (log.splice kept fresh).termAt? index = log.termAt? index := by
  unfold termAt?
  rw [h.get?_splice hlast hle, snapshotIndex_splice, snapshotTerm_splice]

theorem splice_lastIndex (h : log.Gapless) (fresh : List Entry) :
    log.splice log.lastIndex fresh =
      { log with entries := log.entries ++ fresh } := by
  have htake : log.entries.take (log.lastIndex - log.snapshotIndex) =
      log.entries :=
    List.take_of_length_le (by rw [h.lastIndex_eq]; omega)
  unfold Log.splice
  rw [htake]

theorem mem_splice (h : log.Gapless)
    (hentry : entry ∈ (log.splice kept fresh).entries) :
    entry ∈ log.entries ∧ entry.index ≤ kept ∨ entry ∈ fresh := by
  rcases List.mem_append.mp hentry with hold | hnew
  · obtain ⟨k, hk⟩ := List.mem_iff_getElem?.mp hold
    rw [List.getElem?_take] at hk
    split at hk
    · next hlt =>
      have hindex := h k entry hk
      exact Or.inl ⟨List.mem_of_getElem? hk, by omega⟩
    · exact absurd hk (by simp)
  · exact Or.inr hnew

/-- An entry at the end. -/
theorem adjoins_single (h : log.Gapless)
    (hindex : entry.index = log.lastIndex + 1) :
    log.Adjoins log.lastIndex [entry] :=
  ⟨h.boundary_le_last, le_rfl, .cons hindex (.nil _)⟩

theorem push_eq (h : log.Gapless) (entry : Entry) :
    log.push entry = log.splice log.lastIndex [entry] :=
  (h.splice_lastIndex [entry]).symm

theorem push (h : log.Gapless) (hindex : entry.index = log.lastIndex + 1) :
    (log.push entry).Gapless := by
  rw [h.push_eq]
  exact h.splice (h.adjoins_single hindex)

theorem get?_push (h : log.Gapless) (hle : index ≤ log.lastIndex)
    (entry : Entry) : (log.push entry).get? index = log.get? index := by
  rw [h.push_eq]
  exact h.get?_splice le_rfl hle _

theorem get?_push_last (h : log.Gapless)
    (hindex : entry.index = log.lastIndex + 1) :
    (log.push entry).get? (log.lastIndex + 1) = some entry := by
  rw [← hindex]
  exact (h.push hindex).get?_of_mem (List.mem_append_right _ List.mem_cons_self)

end Gapless

/-! ## Dropping what a snapshot covers -/

namespace Gapless

theorem dropThrough (h : log.Gapless) (hle : log.snapshotIndex ≤ index)
    (term : ℕ) : (log.dropThrough index term).Gapless := by
  have hskip := h.skip (index - log.snapshotIndex)
  rw [Nat.add_sub_cancel' hle] at hskip
  exact hskip

theorem lastIndex_dropThrough (h : log.Gapless)
    (hle : log.snapshotIndex ≤ index) (hlast : index ≤ log.lastIndex)
    (term : ℕ) : (log.dropThrough index term).lastIndex = log.lastIndex := by
  rw [(h.dropThrough hle term).lastIndex_eq]
  rw [h.lastIndex_eq] at hlast ⊢
  change index + (log.entries.drop (index - log.snapshotIndex)).length = _
  rw [List.length_drop]
  omega

theorem mem_dropThrough (h : log.Gapless) (hle : log.snapshotIndex ≤ index)
    (hentry : entry ∈ (log.dropThrough index term).entries) :
    entry ∈ log.entries ∧ index < entry.index :=
  ⟨List.mem_of_mem_drop hentry,
    ((h.dropThrough hle term).index_of_mem hentry).1⟩

end Gapless

theorem get?_dropThrough {boundary : ℕ} (hle : log.snapshotIndex ≤ boundary)
    (hlt : boundary < index) (term : ℕ) :
    (log.dropThrough boundary term).get? index = log.get? index := by
  rw [get?_of_lt (by rwa [snapshotIndex_dropThrough]),
    get?_of_lt (hle.trans_lt hlt), snapshotIndex_dropThrough]
  change (log.entries.drop _)[_]? = _
  rw [List.getElem?_drop]
  congr 1
  omega

/-! ## Joining what a leader sends -/

theorem matchesAt_iff :
    log.matchesAt index term = true ↔
      index < log.snapshotIndex ∨ log.termAt? index = some term := by
  unfold matchesAt
  rw [Bool.or_eq_true, decide_eq_true_iff, decide_eq_true_iff]

/-- A log that agrees with another one up to an index reaches there. -/
theorem Gapless.le_last_of_matchesAt (h : log.Gapless)
    (hmatches : log.matchesAt index term = true) : index ≤ log.lastIndex := by
  rcases le_or_gt index log.snapshotIndex with hle | hlt
  · exact hle.trans h.boundary_le_last
  · exact h.le_lastIndex_of_termAt? hlt
      ((matchesAt_iff.mp hmatches).resolve_left hlt.not_gt)

theorem merge_cons (log : Log) (entry : Entry) (rest : List Entry) :
    log.merge (entry :: rest) =
      if entry.index ≤ log.snapshotIndex then log.merge rest
      else match log.termAt? entry.index with
        | none => ⟨none, entry :: rest⟩
        | some term =>
            if term = entry.term then log.merge rest
            else ⟨some entry.index, entry :: rest⟩ := rfl

/-- What is held with the same term, or dropped, is passed over. -/
theorem merge_of_held {sent : List Entry}
    (hheld : ∀ entry ∈ sent, log.snapshotIndex < entry.index →
      log.termAt? entry.index = some entry.term) :
    log.merge sent = ⟨none, []⟩ := by
  induction sent with
  | nil => rfl
  | cons entry rest ih =>
      have hrest := ih fun e he => hheld e (List.mem_cons_of_mem _ he)
      rw [merge_cons]
      split
      · exact hrest
      · next hbeyond =>
        rw [hheld entry List.mem_cons_self (not_le.mp hbeyond)]
        exact (if_pos rfl).trans hrest

/-- The entries that a leader sends after an index, as the log takes them: the
early ones it has, and the fresh ones come after an index that it keeps.  The log
is cut there only if it has an entry of another term in the place of the first
fresh one. -/
structure Meets (log : Log) (prev : ℕ) (sent : List Entry) (kept : ℕ)
    (early fresh : List Entry) : Prop where
  split : sent = early ++ fresh
  adjoins : log.Adjoins kept fresh
  prev_le : prev ≤ kept
  held : ∀ entry ∈ early, log.snapshotIndex < entry.index →
    entry.index ≤ kept ∧ log.termAt? entry.index = some entry.term
  place : fresh ≠ [] → kept = prev + early.length
  merge : log.merge sent = ⟨none, fresh⟩ ∧ kept = log.lastIndex ∨
    log.merge sent = ⟨some (kept + 1), fresh⟩ ∧ kept < log.lastIndex ∧
      ∃ entry ∈ sent, entry.index = kept + 1 ∧
        ∃ term, log.termAt? entry.index = some term ∧ term ≠ entry.term

/-- Nothing is passed over, as the first entry is new to the log. -/
theorem Adjoins.meets (h : log.Adjoins kept fresh)
    (hmerge : log.merge fresh = ⟨none, fresh⟩ ∧ kept = log.lastIndex ∨
      log.merge fresh = ⟨some (kept + 1), fresh⟩ ∧ kept < log.lastIndex ∧
        ∃ entry ∈ fresh, entry.index = kept + 1 ∧
          ∃ term, log.termAt? entry.index = some term ∧ term ≠ entry.term) :
    log.Meets kept fresh kept [] fresh where
  split := rfl
  adjoins := h
  prev_le := le_rfl
  held _ hin := absurd hin List.not_mem_nil
  place _ := rfl
  merge := hmerge

/-- An entry that the log has, or dropped, is passed over. -/
theorem Meets.pass {prev : ℕ} {rest early : List Entry}
    (h : log.Meets (prev + 1) rest kept early fresh)
    (hindex : entry.index = prev + 1)
    (hheld : log.snapshotIndex < entry.index →
      log.termAt? entry.index = some entry.term)
    (hmerge : log.merge (entry :: rest) = log.merge rest) :
    log.Meets prev (entry :: rest) kept (entry :: early) fresh where
  split := by rw [h.split, List.cons_append]
  adjoins := h.adjoins
  prev_le := (Nat.le_succ prev).trans h.prev_le
  held found hfound hlt := by
    rcases List.mem_cons.mp hfound with rfl | hin
    · exact ⟨hindex.le.trans h.prev_le, hheld hlt⟩
    · exact h.held found hin hlt
  place hfresh := by
    rw [h.place hfresh, List.length_cons]
    omega
  merge := by
    rw [hmerge]
    refine h.merge.imp_right fun ⟨hcut, hlt, found, hfound, hconflict⟩ => ?_
    exact ⟨hcut, hlt, found, List.mem_cons_of_mem _ hfound, hconflict⟩

/-- Entries that follow one another join a log that reaches to where they
begin. -/
theorem Gapless.exists_meets (h : log.Gapless) {prev : ℕ} {sent : List Entry}
    (hnumbered : NumberedFrom prev sent) (hprev : prev ≤ log.lastIndex) :
    ∃ kept early fresh, log.Meets prev sent kept early fresh := by
  -- on the entries: each one is passed over, until one is new to the log
  induction sent generalizing prev with
  | nil =>
      have hnil : log.Adjoins log.lastIndex [] :=
        ⟨h.boundary_le_last, le_rfl, .nil _⟩
      have hmeets := hnil.meets (Or.inl ⟨rfl, rfl⟩)
      exact ⟨log.lastIndex, [], [], { hmeets with
        prev_le := hprev
        place := fun hne => absurd rfl hne }⟩
  | cons entry rest ih =>
      have hindex := hnumbered.head
      have hunfold := merge_cons log entry rest
      by_cases hcovered : entry.index ≤ log.snapshotIndex
      · rw [if_pos hcovered] at hunfold
        have hlast := hcovered.trans h.boundary_le_last
        obtain ⟨kept, early, fresh, hmeets⟩ := ih hnumbered.tail (hindex ▸ hlast)
        exact ⟨kept, entry :: early, fresh, hmeets.pass hindex
          (fun hlt => absurd hcovered hlt.not_ge) hunfold⟩
      · rw [if_neg hcovered] at hunfold
        have hadjoins : log.Adjoins prev (entry :: rest) :=
          ⟨by omega, hprev, hnumbered⟩
        cases hterm : log.termAt? entry.index with
        | none =>
            rw [hterm] at hunfold
            have hlast := h.lastIndex_lt_of_termAt? (by omega) hterm
            exact ⟨prev, [], entry :: rest,
              hadjoins.meets (Or.inl ⟨hunfold, by omega⟩)⟩
        | some term =>
            rw [hterm] at hunfold
            have hlast := h.le_lastIndex_of_termAt? (not_le.mp hcovered) hterm
            by_cases hsame : term = entry.term
            · have hpass := hunfold.trans (if_pos hsame)
              obtain ⟨kept, early, fresh, hmeets⟩ :=
                ih hnumbered.tail (hindex ▸ hlast)
              exact ⟨kept, entry :: early, fresh, hmeets.pass hindex
                (fun _ => hsame ▸ hterm) hpass⟩
            · have hcut := hunfold.trans (if_neg hsame)
              refine ⟨prev, [], entry :: rest, hadjoins.meets (Or.inr ⟨?_, ?_,
                entry, List.mem_cons_self, hindex, term, hterm, hsame⟩)⟩
              · rw [hcut, hindex]
              · omega

/-- Once they are taken in, the entries are all there. -/
theorem Meets.held_splice {prev : ℕ} {sent early : List Entry}
    (h : log.Meets prev sent kept early fresh) (hgapless : log.Gapless)
    (hentry : entry ∈ sent) (hlt : log.snapshotIndex < entry.index) :
    (log.splice kept fresh).termAt? entry.index = some entry.term := by
  rcases List.mem_append.mp (h.split ▸ hentry) with hearly | hfresh
  · obtain ⟨hkept, hheld⟩ := h.held entry hearly hlt
    rw [hgapless.termAt?_splice h.adjoins.le_last hkept]
    exact hheld
  · have hin : entry ∈ (log.splice kept fresh).entries :=
      List.mem_append_right _ hfresh
    rw [termAt?_eq_get? (by rwa [snapshotIndex_splice]),
      (hgapless.splice h.adjoins).get?_of_mem hin]
    rfl

theorem takeBefore_succ (log : Log) (kept : ℕ) :
    log.takeBefore (kept + 1) = log.splice kept [] := by
  unfold takeBefore splice
  rw [List.append_nil, show kept + 1 - log.snapshotIndex - 1 =
    kept - log.snapshotIndex by omega]

end Log

end Consensus
