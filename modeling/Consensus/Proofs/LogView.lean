import Consensus.Proofs.Ledger.Steps
import Consensus.Proofs.SoundLog

/-!
# A log and what it has compacted

The log in memory has lost the entries that its snapshot covers.  It shows a
list of entries if the list, less the compacted part, is what it holds.  Every
question that a node asks its log then has an answer in terms of the whole
list, and every change of the log is a change of that list.
-/

namespace Consensus

/-! ## Numbered entries -/

theorem Numbered.drop {entries : List Entry} (h : Numbered entries) (base : ℕ) :
    NumberedFrom base (entries.drop base) := by
  intro k entry hk
  rw [List.getElem?_drop] at hk
  exact h (base + k) entry hk

/-- An index of a numbered list is its position. -/
theorem Numbered.index_of_getLast {entries : List Entry} {entry : Entry}
    (h : Numbered entries) (hlast : entries.getLast? = some entry) :
    entry.index = entries.length := by
  have hpos : 0 < entries.length := by
    refine List.length_pos_iff.mpr ?_
    rintro rfl
    simp at hlast
  rw [List.getLast?_eq_getElem?] at hlast
  have hindex := h _ entry hlast
  omega

/-- What remains of a list after a drop has the same last item. -/
theorem getLast?_drop_of_lt {α : Type} {xs : List α} {n : ℕ}
    (h : n < xs.length) : (xs.drop n).getLast? = xs.getLast? := by
  rw [List.getLast?_drop, if_neg (by omega)]

/-- The lists agree up to every index where they have the same term. -/
def Agree (xs ys : List Entry) : Prop :=
  ∀ index term, termAt xs index = some term → termAt ys index = some term →
    xs.take index = ys.take index

namespace Log

/-- The log holds the list, less what is compacted. -/
structure Shows (log : Log) (all : List Entry) : Prop where
  boundary_le : log.snapshotIndex ≤ all.length
  entries : log.entries = all.drop log.snapshotIndex
  term : some log.snapshotTerm = termAt all log.snapshotIndex

namespace Shows

variable {log : Log} {all : List Entry}

/-! ## Looking at the log -/

theorem lastIndex_eq (h : log.Shows all) (hall : Numbered all) :
    log.lastIndex = all.length := by
  have hle := h.boundary_le
  unfold lastIndex
  rw [h.entries]
  rcases Nat.eq_or_lt_of_le hle with heq | hlt
  · rw [heq, List.drop_length]
    exact rfl
  · rw [getLast?_drop_of_lt hlt]
    cases hlast : all.getLast? with
    | none =>
        rw [List.getLast?_eq_none_iff] at hlast
        rw [hlast] at hlt
        simp at hlt
    | some entry => exact hall.index_of_getLast hlast

theorem lastTerm_eq (h : log.Shows all) : log.lastTerm = Consensus.lastTerm all := by
  unfold Log.lastTerm
  rw [h.entries]
  rcases Nat.eq_or_lt_of_le h.boundary_le with heq | hlt
  · have hterm := h.term
    rw [heq] at hterm
    rw [heq, List.drop_length]
    cases hall : all.length with
    | zero =>
        rw [List.length_eq_zero_iff] at hall
        subst hall
        simpa [Consensus.lastTerm, termAt] using hterm
    | succ k =>
        rw [hall, termAt_succ] at hterm
        have hlast : all.getLast? = all[k]? := by
          rw [List.getLast?_eq_getElem?, hall, Nat.add_sub_cancel]
        rw [Consensus.lastTerm, hlast, ← hterm]
        rfl
  · rw [getLast?_drop_of_lt hlt, Consensus.lastTerm]
    cases hlast : all.getLast? with
    | none =>
        rw [List.getLast?_eq_none_iff] at hlast
        rw [hlast] at hlt
        simp at hlt
    | some entry => rfl

theorem get?_eq (h : log.Shows all) (index : ℕ) :
    log.get? index =
      if index ≤ log.snapshotIndex then none else all[index - 1]? := by
  unfold get?
  split
  · rfl
  · next hlt =>
    rw [h.entries, List.getElem?_drop]
    congr 1
    omega

theorem termAt?_of_le (h : log.Shows all) {index : ℕ}
    (hle : log.snapshotIndex ≤ index) : log.termAt? index = termAt all index := by
  unfold termAt?
  by_cases hzero : index = 0
  · subst hzero
    rfl
  · rw [if_neg hzero]
    by_cases hboundary : index = log.snapshotIndex
    · rw [if_pos hboundary, hboundary]
      exact h.term
    · rw [if_neg hboundary, h.get?_eq, if_neg (by omega), termAt,
        if_neg hzero]

theorem termAt?_eq_some (h : log.Shows all) {index term : ℕ}
    (hterm : log.termAt? index = some term) : termAt all index = some term := by
  by_cases hle : log.snapshotIndex ≤ index
  · rwa [← h.termAt?_of_le hle]
  · unfold termAt? at hterm
    by_cases hzero : index = 0
    · subst hzero
      simpa using hterm
    · rw [if_neg hzero, if_neg (by omega), get?, if_pos (by omega)] at hterm
      simp at hterm

theorem entriesFrom_eq (h : log.Shows all) {start : ℕ} (count : ℕ)
    (hlt : log.snapshotIndex < start) :
    log.entriesFrom start count = (all.drop (start - 1)).take count := by
  rw [entriesFrom_eq_drop, h.entries, List.drop_drop]
  congr 2
  omega

theorem entriesAfter_eq (h : log.Shows all) (hall : Numbered all) {after : ℕ}
    (hle : log.snapshotIndex ≤ after) :
    log.entriesAfter after = all.drop after := by
  unfold entriesAfter
  rw [h.entries, (hall.drop _).filter_lt_index, List.drop_drop]
  congr 1
  omega

theorem isUpToDate_iff (h : log.Shows all) (hall : Numbered all)
    {other : List Entry} :
    log.isUpToDate other.length (Consensus.lastTerm other) = true ↔
      Ledger.UpToDate all other := by
  unfold isUpToDate Ledger.UpToDate
  rw [h.lastTerm_eq, h.lastIndex_eq hall]
  simp only [Bool.or_eq_true, Bool.and_eq_true, decide_eq_true_eq]

/-! ## Changing the log -/

/-- The boundary moves, the list stays. -/
theorem dropThrough (h : log.Shows all) {index term : ℕ}
    (hle : log.snapshotIndex ≤ index) (hlength : index ≤ all.length)
    (hterm : some term = termAt all index) :
    (log.dropThrough index term).Shows all where
  boundary_le := hlength
  entries := by
    change log.entries.drop (index - log.snapshotIndex) = all.drop index
    rw [h.entries, List.drop_drop]
    congr 1
    omega
  term := hterm

/-- The log holds another list with the same compacted part. -/
theorem replace (h : log.Shows all) {other : List Entry}
    (hsame : all.take log.snapshotIndex <+: other) :
    Shows { log with entries := other.drop log.snapshotIndex } other where
  boundary_le := by
    have hle := hsame.length_le
    rwa [List.length_take, Nat.min_eq_left h.boundary_le] at hle
  entries := rfl
  term := by
    change some log.snapshotTerm = termAt other log.snapshotIndex
    have hlen : (all.take log.snapshotIndex).length = log.snapshotIndex := by
      rw [List.length_take, Nat.min_eq_left h.boundary_le]
    rw [termAt_eq_of_isPrefix hsame hlen.ge, h.term,
      termAt_eq_of_isPrefix (List.take_prefix _ _) hlen.ge]

/-! ## Joining what a leader sends -/

/-- How the entries of `sent` after the first `k` join the log, which has
these `k` already. -/
theorem merge_cases (h : log.Shows all) {sent : List Entry}
    (hsent : Numbered sent) (hagree : Agree all sent)
    (hbelow : ∀ k, k ≤ log.snapshotIndex → k ≤ sent.length →
      all.take k = sent.take k)
    {k : ℕ} (hk : k ≤ all.length) (hksent : k ≤ sent.length)
    (hsame : all.take k = sent.take k) :
    (log.merge (sent.drop k) = ⟨none, []⟩ ∧ sent <+: all) ∨
      (log.merge (sent.drop k) = ⟨none, sent.drop all.length⟩ ∧ all <+: sent) ∨
      ∃ cut, log.snapshotIndex ≤ cut ∧ cut < all.length ∧
        cut ≤ sent.length ∧ all.take cut = sent.take cut ∧ ¬ sent <+: all ∧
          log.merge (sent.drop k) = ⟨some (cut + 1), sent.drop cut⟩ := by
  induction hrest : sent.drop k generalizing k with
  | nil =>
      rw [List.drop_eq_nil_iff] at hrest
      have htake : sent.take k = sent := List.take_of_length_le hrest
      refine Or.inl ⟨rfl, ?_⟩
      rw [← htake, ← hsame]
      exact List.take_prefix _ _
  | cons entry rest ih =>
      have hlt : k < sent.length := by
        by_contra hge
        rw [List.drop_eq_nil_iff.mpr (by omega)] at hrest
        exact absurd hrest (by simp)
      obtain ⟨hentry, hrest'⟩ : sent[k] = entry ∧ sent.drop (k + 1) = rest := by
        rw [List.drop_eq_getElem_cons hlt] at hrest
        exact List.cons.inj hrest
      have hget : sent[k]? = some entry := by
        rw [List.getElem?_eq_getElem hlt, hentry]
      have hindex : entry.index = k + 1 := hsent k entry hget
      have hsentTerm : termAt sent (k + 1) = some entry.term := by
        rw [termAt_succ, hget]
        rfl
      unfold merge
      rw [hindex]
      by_cases hcompacted : k + 1 ≤ log.snapshotIndex
      · rw [if_pos hcompacted]
        exact ih (hcompacted.trans h.boundary_le) hlt
          (hbelow (k + 1) hcompacted hlt) hrest'
      · rw [if_neg hcompacted, h.termAt?_of_le (by omega)]
        cases hterm : termAt all (k + 1) with
        | none =>
            have hend : all.length = k := by
              have hnone : ¬ (termAt all (k + 1)).isSome := by simp [hterm]
              rw [termAt_isSome_iff] at hnone
              omega
            refine Or.inr (Or.inl ⟨by rw [hend, hrest], ?_⟩)
            rw [← List.take_of_length_le hend.le, hsame]
            exact List.take_prefix _ _
        | some term =>
            have hlength : k + 1 ≤ all.length :=
              termAt_isSome_iff.mp (by simp [hterm])
            dsimp only
            by_cases heq : term = entry.term
            · rw [if_pos heq]
              subst heq
              exact ih hlength hlt (hagree (k + 1) _ hterm hsentTerm) hrest'
            · refine Or.inr (Or.inr ⟨k, by omega, hlength, hksent, hsame, ?_, ?_⟩)
              · intro hle
                have hclash := termAt_eq_of_isPrefix hle (Nat.succ_le_of_lt hlt)
                rw [hterm, hsentTerm] at hclash
                exact heq (Option.some.inj hclash)
              · rw [if_neg heq, hrest]

end Shows

end Log

namespace Ledger

variable {S : Scope} {ℓ : Ledger}

/-- Grounded lists agree wherever they have an entry of one term. -/
theorem Grounded.agree {xs ys : List Entry} (hxs : ℓ.Grounded xs)
    (hys : ℓ.Grounded ys) : Agree xs ys := by
  intro index term hx hy
  cases index with
  | zero => simp
  | succ k =>
      rw [termAt_succ, Option.map_eq_some_iff] at hx hy
      obtain ⟨x, hxk, rfl⟩ := hx
      obtain ⟨y, hyk, hterm⟩ := hy
      have hxlen := (List.getElem?_eq_some_iff.mp hxk).1
      have hylen := (List.getElem?_eq_some_iff.mp hyk).1
      have hx := hxs k x hxk
      have hy := hys k y hyk
      rw [hterm] at hy
      have hle := isPrefix_of_length_le hx hy (by
        rw [List.length_take, List.length_take]
        omega)
      refine hle.eq_of_length ?_
      rw [List.length_take, List.length_take]
      omega

end Ledger

end Consensus
