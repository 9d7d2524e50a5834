import Consensus.Proofs.Retention
import Consensus.Proofs.SoundLog
import Mathlib.Data.List.TakeWhile

/-!
# Opening a log that was rejected

Opening a log drops what the snapshot covers from the disk and then checks the rest.
The two go by different measures.  What is checked is what stands behind the covered
entries at the start; what is dropped is every covered entry, wherever it stands.  So
a covered entry behind an uncovered one is a flaw to the first opening and gone at the
second.

From the second opening on nothing changes any more.  Whether a log that was rejected
stays rejected is therefore decided by what the first opening leaves on the disk.
-/

namespace Consensus

variable {σ : Type} [Storage σ] {Holds : σ → Stored → Prop} {Writable : ℕ → Prop}
  {disk : σ} {s : Stored} {index term : ℕ}

/-! ## What opening leaves on the disk -/

/-- The entries behind those at the start that a snapshot ending at the index covers. -/
def pastCovered (index : ℕ) (stored : List Entry) : List Entry :=
  stored.dropWhile fun e => decide (e.index ≤ index)

theorem drop_length_covered (index : ℕ) (stored : List Entry) :
    stored.drop (stored.takeWhile fun e => decide (e.index ≤ index)).length =
      pastCovered index stored := by
  have hsplit := stored.takeWhile_append_dropWhile (p := fun e => decide (e.index ≤ index))
  exact (congrArg _ hsplit.symm).trans List.drop_left

/-- What a snapshot ending at the index covers comes first. -/
def StartsCovered (index : ℕ) (stored : List Entry) : Prop :=
  ∃ entry ∈ stored.head?, entry.index ≤ index

theorem startsCovered_iff {stored : List Entry} :
    StartsCovered index stored ↔
      (stored.takeWhile fun e => decide (e.index ≤ index)) ≠ [] := by
  cases stored with
  | nil => simp [StartsCovered]
  | cons entry rest => by_cases h : entry.index ≤ index <;> simp [StartsCovered, h]

instance (index : ℕ) (stored : List Entry) : Decidable (StartsCovered index stored) :=
  decidable_of_iff _ startsCovered_iff.symm

/-- Without a covered entry at the start there is nothing to pass over. -/
theorem pastCovered_of_not_starts {stored : List Entry}
    (h : ¬ StartsCovered index stored) : pastCovered index stored = stored := by
  rw [startsCovered_iff, not_not] at h
  rw [← drop_length_covered, h, List.length_nil, List.drop_zero]

namespace Stored

/-- What is stored once a log with its boundary at the index was opened. -/
def opened (s : Stored) (index : ℕ) : Stored :=
  if StartsCovered index s.entries then s.drop index else s

/-- Opening leaves no covered entry at the start. -/
theorem not_startsCovered_opened (s : Stored) (index : ℕ) :
    ¬ StartsCovered index (s.opened index).entries := by
  unfold opened
  split
  · rintro ⟨entry, hentry, hle⟩
    have hin := List.mem_of_mem_head? hentry
    exact absurd hle (not_le.mpr (of_decide_eq_true (List.mem_filter.mp hin).2))
  · assumption

/-- Opening again changes nothing. -/
theorem opened_opened (s : Stored) (index : ℕ) :
    (s.opened index).opened index = s.opened index :=
  if_neg (s.not_startsCovered_opened index)

end Stored

/-! ## Opening again and again -/

namespace Log

/-- What opening makes of the entries behind those that the snapshot covers. -/
def verdict (index term : ℕ) (entries : List Entry) : Except Error Log :=
  match firstFlaw? (index + 1) term entries with
  | some flaw => .error (.corrupted flaw)
  | none => .ok ⟨entries, index, term⟩

/-- The log is found corrupted. -/
def Rejects (result : Except Error Log) : Prop :=
  ∃ flaw, result = .error (.corrupted flaw)

/-- A log is rejected unless the entries are numbered from the boundary on with terms
that never fall. -/
theorem rejects_verdict_iff {entries : List Entry} :
    Rejects (verdict index term entries) ↔
      ¬ (NumberedFrom index entries ∧ Rising term entries) := by
  rw [← firstFlaw?_eq_none_iff]
  unfold Rejects verdict
  cases firstFlaw? (index + 1) term entries <;> simp

/-- Of the entries behind the covered ones opening makes the log, or it finds it
corrupted; the disk is left in the same way. -/
theorem load_eq (hretains : Storage.Retains Holds Writable False)
    (hholds : Holds disk s) (index term : ℕ) :
    ∃ disk', Holds disk' (s.opened index) ∧ outcome (Log.load index term) disk =
      (verdict index term (pastCovered index s.entries), disk') := by
  have hread : Storage.inspect Storage.loadEntries disk = .ok s.entries disk := by
    unfold Storage.inspect
    rw [hretains.loadEntries disk s hholds]
  have hcheck : ∀ disk', outcome
      (match firstFlaw? (index + 1) term (pastCovered index s.entries) with
        | some flaw => throw (.corrupted flaw)
        | none => pure ⟨pastCovered index s.entries, index, term⟩ :
        EStateM Error σ Log) disk' =
          (verdict index term (pastCovered index s.entries), disk') := by
    intro disk'
    unfold verdict
    cases firstFlaw? (index + 1) term (pastCovered index s.entries) <;> rfl
  unfold Log.load
  rw [outcome_bind_of_ok hread]
  dsimp only
  rw [drop_length_covered]
  by_cases hstarts : StartsCovered index s.entries
  · obtain ⟨⟨⟩, disk', hdrop, hholds'⟩ :=
      Ensures.exists_ok (hretains.compactTo index disk s hholds)
    refine ⟨disk', by rwa [Stored.opened, if_pos hstarts], ?_⟩
    rw [if_pos (startsCovered_iff.mp hstarts), outcome_bind_of_ok hdrop]
    exact hcheck disk'
  · refine ⟨disk, by rwa [Stored.opened, if_neg hstarts], ?_⟩
    rw [if_neg (startsCovered_iff.not.mp hstarts)]
    exact hcheck disk

/-- The disk after the log on it was opened a number of times. -/
def reloaded (index term : ℕ) (disk : σ) : ℕ → σ
  | 0 => disk
  | n + 1 => (outcome (Log.load index term) (reloaded index term disk n)).2

/-- What opening the log gives that was opened a number of times before. -/
def reload (index term : ℕ) (disk : σ) (n : ℕ) : Except Error Log :=
  (outcome (Log.load index term) (reloaded index term disk n)).1

section

variable (hretains : Storage.Retains Holds Writable False) (hholds : Holds disk s)
include hretains hholds

/-- The first opening decides what the disk holds from then on. -/
theorem holds_reloaded (n : ℕ) :
    Holds (reloaded index term disk (n + 1)) (s.opened index) := by
  induction n with
  | zero =>
      obtain ⟨disk', hholds', hload⟩ := load_eq hretains hholds index term
      rw [reloaded, reloaded, hload]
      exact hholds'
  | succ n ih =>
      obtain ⟨disk', hholds', hload⟩ := load_eq hretains ih index term
      rw [reloaded, hload, ← s.opened_opened index]
      exact hholds'

theorem reload_zero :
    reload index term disk 0 = verdict index term (pastCovered index s.entries) := by
  obtain ⟨disk', -, hload⟩ := load_eq hretains hholds index term
  rw [reload, reloaded, hload]

/-- Every later opening judges what the first one left. -/
theorem reload_succ (n : ℕ) :
    reload index term disk (n + 1) = verdict index term (s.opened index).entries := by
  obtain ⟨disk', -, hload⟩ :=
    load_eq hretains (holds_reloaded hretains hholds n) index term
  rw [reload, hload, pastCovered_of_not_starts (s.not_startsCovered_opened index)]

end

/-! ## What stays rejected -/

/-- Once the covered entries are gone nothing is wrong with the rest: they stand at
the start, so that opening drops them, and without them the entries are numbered from
the boundary on and their terms never fall. -/
structure Mends (index term : ℕ) (stored : List Entry) : Prop where
  starts : StartsCovered index stored
  numbered : NumberedFrom index (stored.filter fun e => decide (index < e.index))
  rising : Rising term (stored.filter fun e => decide (index < e.index))

/-- What mends is opened as the log of the entries that are not covered. -/
theorem reload_of_mends (hretains : Storage.Retains Holds Writable False)
    (hholds : Holds disk s) (hmends : Mends index term s.entries) (n : ℕ) :
    reload index term disk (n + 1) =
      .ok ⟨s.entries.filter fun e => decide (index < e.index), index, term⟩ := by
  have hsound := firstFlaw?_eq_none_iff.mpr ⟨hmends.numbered, hmends.rising⟩
  rw [reload_succ hretains hholds, Stored.opened, if_pos hmends.starts, verdict,
    Stored.drop, hsound]

/-- If no covered entry stands behind an uncovered one, all openings give the same. -/
theorem reload_eq_of_ordered (hretains : Storage.Retains Holds Writable False)
    (hholds : Holds disk s)
    (hordered : ∀ entry ∈ pastCovered index s.entries, index < entry.index) (n : ℕ) :
    reload index term disk n = reload index term disk 0 := by
  cases n with
  | zero => rfl
  | succ n =>
      rw [reload_succ hretains hholds, reload_zero hretains hholds, Stored.opened]
      split
      · have hsplit := s.entries.takeWhile_append_dropWhile
          (p := fun e => decide (e.index ≤ index))
        have hcovered : ((s.entries.takeWhile fun e => decide (e.index ≤ index)).filter
            fun e => decide (index < e.index)) = [] := by
          refine List.filter_eq_nil_iff.mpr fun e he => ?_
          simpa using List.mem_takeWhile_imp he
        have hrest : ((pastCovered index s.entries).filter
            fun e => decide (index < e.index)) = pastCovered index s.entries :=
          List.filter_eq_self.mpr fun e he => decide_eq_true (hordered e he)
        rw [Stored.drop, ← hsplit, List.filter_append, hcovered, List.nil_append, hsplit]
        exact congrArg _ hrest
      · next hstarts => rw [pastCovered_of_not_starts hstarts]

/-- A log that was rejected stays rejected, however often it is opened, unless what is
stored mends.  A log that mends is accepted from the second opening on. -/
theorem rejects_reload_iff (hretains : Storage.Retains Holds Writable False)
    (hholds : Holds disk s) (hrejects : Rejects (reload index term disk 0)) (n : ℕ) :
    Rejects (reload index term disk (n + 1)) ↔ ¬ Mends index term s.entries := by
  by_cases hmends : Mends index term s.entries
  · refine iff_of_false ?_ (not_not.mpr hmends)
    rw [reload_of_mends hretains hholds hmends]
    rintro ⟨flaw, hflaw⟩
    cases hflaw
  · refine iff_of_true ?_ hmends
    rw [reload_succ hretains hholds]
    rw [reload_zero hretains hholds] at hrejects
    by_cases hstarts : StartsCovered index s.entries
    · rw [Stored.opened, if_pos hstarts, rejects_verdict_iff]
      exact fun h => hmends ⟨hstarts, h.1, h.2⟩
    · rw [Stored.opened, if_neg hstarts]
      rwa [pastCovered_of_not_starts hstarts] at hrejects

/-- Behind the two entries of a log a covered one stands again, which the first
opening finds out of place. -/
def mending : Memory :=
  { entries := [⟨1, 1, .noop⟩, ⟨1, 2, .noop⟩, ⟨1, 1, .noop⟩] }

/-- With a snapshot that ends at the first entry, the log is rejected only once. -/
theorem rejects_reload_mending :
    reload 1 1 mending 0 = .error (.corrupted (.logGap 3 1)) ∧
      ∀ n, ¬ Rejects (reload 1 1 mending (n + 1)) := by
  have hrejects : reload 1 1 mending 0 = .error (.corrupted (.logGap 3 1)) := rfl
  have hholds : mending.Retaining mending.stored := ⟨⟨rfl, rfl⟩, rfl⟩
  have hmends : Mends 1 1 mending.stored.entries :=
    ⟨⟨_, rfl, le_rfl⟩, .cons rfl (.nil 2), ⟨le_rfl, trivial⟩⟩
  have hretains : Storage.Retains Memory.Retaining (fun _ => True) False := retains_clean
  refine ⟨hrejects, fun n hagain => ?_⟩
  exact (rejects_reload_iff hretains hholds ⟨_, hrejects⟩ n).mp hagain hmends

end Log

end Consensus
