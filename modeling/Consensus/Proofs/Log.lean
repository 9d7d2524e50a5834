import Consensus.Log
import Consensus.Proofs.Counting
import Mathlib.Data.Nat.Notation
import Mathlib.Order.Nat

/-!
# The log by position

Where a log ends, and what it answers about an index when entries are added at its
end or dropped at its start, whatever numbers the entries carry.
-/

namespace Consensus.Log

variable {log : Log} {index term bound boundary : ℕ}

@[simp] theorem snapshotIndex_dropThrough (log : Log) (boundary term : ℕ) :
    (log.dropThrough boundary term).snapshotIndex = boundary := rfl

@[simp] theorem snapshotIndex_push (log : Log) (entry : Entry) :
    (log.push entry).snapshotIndex = log.snapshotIndex := rfl

theorem firstIndex_eq (log : Log) : log.firstIndex = log.snapshotIndex + 1 := rfl

theorem entriesFrom_eq_drop (log : Log) (start count : ℕ) : log.entriesFrom start count =
    (log.entries.drop (max start (log.snapshotIndex + 1) - log.snapshotIndex - 1)).take
      count := rfl

theorem termAt?_of_lt (hlt : log.snapshotIndex < index) :
    log.termAt? index =
      (log.entries[index - log.snapshotIndex - 1]?).map (·.term) := by
  unfold termAt? get?
  rw [if_neg (by omega), if_neg (by omega), if_neg (by omega)]

theorem termAt?_of_covered (hpos : 0 < index) (hlt : index < log.snapshotIndex) :
    log.termAt? index = none := by
  unfold termAt? get?
  rw [if_neg hpos.ne', if_neg hlt.ne, if_pos hlt.le, Option.map_none]

/-- From the new boundary on the log stays what it was. -/
theorem termAt?_dropThrough (hlt : log.snapshotIndex < boundary)
    (hterm : log.termAt? boundary = some term) (hle : boundary ≤ index) :
    (log.dropThrough boundary term).termAt? index = log.termAt? index := by
  rcases hle.eq_or_lt with rfl | hbeyond
  · rw [hterm]
    unfold termAt?
    rw [if_neg (by omega), snapshotIndex_dropThrough, if_pos rfl]
    rfl
  · rw [termAt?_of_lt hbeyond, termAt?_of_lt (hlt.trans hbeyond)]
    change ((log.entries.drop _)[_]?).map _ = _
    rw [List.getElem?_drop, snapshotIndex_dropThrough]
    congr 2
    omega

/-- The log ends at the index. -/
def EndsAt (log : Log) (index : ℕ) : Prop :=
  log.snapshotIndex + log.entries.length = index

theorem EndsAt.le_of_termAt? (h : log.EndsAt index)
    (hlt : log.snapshotIndex < bound) (hterm : log.termAt? bound = some term) :
    bound ≤ index := by
  rw [termAt?_of_lt hlt] at hterm
  obtain ⟨entry, hentry, -⟩ := Option.map_eq_some_iff.mp hterm
  have hbound := (List.getElem?_eq_some_iff.mp hentry).1
  unfold EndsAt at h
  omega

theorem EndsAt.dropThrough (h : log.EndsAt index)
    (hlt : log.snapshotIndex < boundary) (hle : boundary ≤ index) (term : ℕ) :
    (log.dropThrough boundary term).EndsAt index := by
  unfold EndsAt at h ⊢
  rw [snapshotIndex_dropThrough]
  change boundary + (log.entries.drop _).length = index
  rw [List.length_drop]
  omega

theorem EndsAt.push (h : log.EndsAt index) (entry : Entry) :
    (log.push entry).EndsAt (index + 1) := by
  unfold EndsAt at h ⊢
  change log.snapshotIndex + (log.entries ++ [entry]).length = index + 1
  rw [List.length_append, List.length_singleton]
  omega

theorem EndsAt.get?_push (h : log.EndsAt index) (entry : Entry) :
    (log.push entry).get? (index + 1) = some entry := by
  unfold EndsAt at h
  unfold get?
  rw [snapshotIndex_push, if_neg (by omega)]
  change (log.entries ++ [entry])[_]? = _
  rw [List.getElem?_append_right (by omega),
    show index + 1 - log.snapshotIndex - 1 - log.entries.length = 0 by omega]
  rfl

theorem EndsAt.termAt?_push (h : log.EndsAt index) (entry : Entry) :
    (log.push entry).termAt? (index + 1) = some entry.term := by
  unfold EndsAt at h
  rw [termAt?_of_lt (by rw [snapshotIndex_push]; omega), snapshotIndex_push]
  change ((log.entries ++ [entry])[_]?).map _ = _
  rw [List.getElem?_append_right (by omega),
    show index + 1 - log.snapshotIndex - 1 - log.entries.length = 0 by omega]
  rfl

end Consensus.Log
