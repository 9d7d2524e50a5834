import Consensus.Proofs.Retention
import Mathlib.Order.Bounds.Basic

/-!
# A follower takes over what its leader sends

The entries that a leader sends overlap with the log in any way: the first of them may
be covered by the snapshot, others are there already, one may have another term than
the entry in its place, and the last may be beyond the end.

The log gives way at the first conflict and nowhere else.  Without one it grows by what
is beyond its end, so that a message which comes late, or twice, or holds only part of
what the log has, leaves log and disk as they are.
-/

namespace Consensus

namespace Log

variable {log : Log} {prev kept index : ℕ} {entry : Entry}
  {sent early fresh : List Entry}

/-- In the place of the entry the log has one of another term. -/
def Clashes (log : Log) (entry : Entry) : Prop :=
  ∃ own, log.get? entry.index = some own ∧ own.term ≠ entry.term

/-- The indices at which the log and the entries disagree. -/
def conflicts (log : Log) (sent : List Entry) : Set ℕ :=
  {index | ∃ entry ∈ sent, entry.index = index ∧ log.Clashes entry}

/-- What a log becomes by the entries that a leader sends. -/
structure TakesOver (log : Log) (sent : List Entry) (log' : Log) : Prop where
  boundary : log'.snapshotIndex = log.snapshotIndex ∧
    log'.snapshotTerm = log.snapshotTerm
  extended : log.conflicts sent = ∅ →
    log'.entries =
      log.entries ++ sent.filter fun e => decide (log.lastIndex < e.index)
  replaced : ∀ first, IsLeast (log.conflicts sent) first →
    log'.entries = (log.entries.filter fun e => decide (e.index < first)) ++
      sent.filter fun e => decide (first ≤ e.index)
  kept : ∀ index ≤ log.lastIndex, (∀ conflict ∈ log.conflicts sent, index < conflict) →
    log'.get? index = log.get? index

theorem clashes_iff_termAt? (hlt : log.snapshotIndex < entry.index) :
    log.Clashes entry ↔
      ∃ term, log.termAt? entry.index = some term ∧ term ≠ entry.term := by
  rw [termAt?_eq_get? hlt]
  constructor
  · rintro ⟨own, hown, hterm⟩
    exact ⟨own.term, by rw [hown]; rfl, hterm⟩
  · rintro ⟨term, hown, hterm⟩
    obtain ⟨own, hget, rfl⟩ := Option.map_eq_some_iff.mp hown
    exact ⟨own, hget, hterm⟩

/-! ## Where a log meets the entries -/

namespace Meets

theorem index_le_of_early (h : log.Meets prev sent kept early fresh)
    (hentry : entry ∈ early) : entry.index ≤ kept := by
  rcases le_or_gt entry.index log.snapshotIndex with hle | hlt
  · exact hle.trans h.adjoins.boundary_le
  · exact (h.held entry hentry hlt).1

theorem lt_index_of_fresh (h : log.Meets prev sent kept early fresh)
    (hentry : entry ∈ fresh) : kept < entry.index :=
  (h.adjoins.numbered.index_of_mem hentry).1

/-- The fresh entries are those beyond the index that the log keeps. -/
theorem fresh_eq_filter (h : log.Meets prev sent kept early fresh) :
    fresh = sent.filter fun e => decide (kept < e.index) := by
  have hearly : (early.filter fun e => decide (kept < e.index)) = [] :=
    List.filter_eq_nil_iff.mpr fun e he =>
      by simpa using h.index_le_of_early he
  have hfresh : (fresh.filter fun e => decide (kept < e.index)) = fresh :=
    List.filter_eq_self.mpr fun e he => decide_eq_true (h.lt_index_of_fresh he)
  rw [h.split, List.filter_append, hearly, hfresh, List.nil_append]

theorem not_clashes (h : log.Meets prev sent kept early fresh)
    (hgapless : log.Gapless) (hentry : entry ∈ early) : ¬ log.Clashes entry := by
  rintro ⟨own, hown, hterm⟩
  have hlt := (hgapless.range_of_get? hown).1
  have hheld := (h.held entry hentry hlt).2
  rw [termAt?_eq_get? hlt, hown] at hheld
  exact hterm (Option.some.inj hheld)

/-- A conflict is beyond the index that the log keeps. -/
theorem lt_conflict (h : log.Meets prev sent kept early fresh)
    (hgapless : log.Gapless) (hindex : index ∈ log.conflicts sent) :
    kept < index := by
  obtain ⟨entry, hentry, rfl, hclash⟩ := hindex
  rcases List.mem_append.mp (h.split ▸ hentry) with hearly | hfresh
  · exact absurd hclash (h.not_clashes hgapless hearly)
  · exact h.lt_index_of_fresh hfresh

/-- The log keeps everything, or all that comes before the first conflict. -/
theorem conflicts_cases (h : log.Meets prev sent kept early fresh)
    (hgapless : log.Gapless) :
    kept = log.lastIndex ∧ log.conflicts sent = ∅ ∨
      IsLeast (log.conflicts sent) (kept + 1) := by
  rcases h.merge with ⟨-, hkept⟩ | ⟨-, -, entry, hentry, hindex, hterm⟩
  · refine Or.inl ⟨hkept, Set.eq_empty_of_forall_notMem fun index hconflict => ?_⟩
    have hlt := h.lt_conflict hgapless hconflict
    obtain ⟨entry, -, rfl, own, hown, -⟩ := hconflict
    have hlast := (hgapless.range_of_get? hown).2.1
    omega
  · have hle := h.adjoins.boundary_le
    have hclash := (clashes_iff_termAt? (by omega)).mpr hterm
    exact Or.inr ⟨⟨entry, hentry, hindex, hclash⟩,
      fun index hconflict => h.lt_conflict hgapless hconflict⟩

theorem takesOver_splice (h : log.Meets prev sent kept early fresh)
    (hgapless : log.Gapless) : log.TakesOver sent (log.splice kept fresh) := by
  have hcases := h.conflicts_cases hgapless
  refine ⟨⟨rfl, rfl⟩, ?_, ?_, ?_⟩
  · intro hnone
    rcases hcases with ⟨hkept, -⟩ | hfirst
    · rw [hkept, hgapless.splice_lastIndex, ← hkept, ← h.fresh_eq_filter]
    · exact absurd hfirst.1 (hnone ▸ Set.notMem_empty _)
  · intro first hleast
    rcases hcases with ⟨-, hnone⟩ | hfirst
    · exact absurd hleast.1 (hnone ▸ Set.notMem_empty _)
    · obtain rfl := hleast.unique hfirst
      have hbefore := hgapless.filter_index_lt (kept + 1)
      rw [show kept + 1 - log.snapshotIndex - 1 = kept - log.snapshotIndex by omega]
        at hbefore
      rw [hbefore]
      exact congrArg (_ ++ ·) h.fresh_eq_filter
  · intro index hlast hbefore
    refine hgapless.get?_splice h.adjoins.le_last ?_ fresh
    rcases hcases with ⟨hkept, -⟩ | hfirst
    · exact hkept ▸ hlast
    · exact Nat.le_of_lt_succ (hbefore _ hfirst.1)

/-- Once they are taken over, the entries conflict with nothing. -/
theorem conflicts_splice (h : log.Meets prev sent kept early fresh)
    (hgapless : log.Gapless) : (log.splice kept fresh).conflicts sent = ∅ := by
  refine Set.eq_empty_of_forall_notMem fun index hconflict => ?_
  obtain ⟨entry, hentry, rfl, hclash⟩ := hconflict
  have hlt := ((hgapless.splice h.adjoins).range_of_get? hclash.choose_spec.1).1
  obtain ⟨term, hterm, hdiffers⟩ := (clashes_iff_termAt? hlt).mp hclash
  exact hdiffers (Option.some.inj
    (hterm.symm.trans (h.held_splice hgapless hentry hlt)))

end Meets

/-- Entries that the log has, or that are covered by the snapshot, add nothing to it. -/
theorem merge_of_agrees (hnone : log.conflicts sent = ∅) (hgapless : log.Gapless)
    (hlast : ∀ entry ∈ sent, entry.index ≤ log.lastIndex) :
    log.merge sent = ⟨none, []⟩ := by
  refine merge_of_held fun entry hentry hlt => ?_
  obtain ⟨own, hown⟩ := hgapless.exists_get? hlt (hlast entry hentry)
  have hsame : own.term = entry.term := by
    by_contra hterm
    have hconflict : entry.index ∈ log.conflicts sent :=
      ⟨entry, hentry, rfl, own, hown, hterm⟩
    exact Set.notMem_empty _ (hnone ▸ hconflict)
  rw [termAt?_eq_get? hlt, hown, ← hsame]
  rfl

end Log

namespace Journal

variable {σ : Type} [Storage σ] {Holds : σ → Stored → Prop} {Writable : ℕ → Prop}
  {fails : Prop} {j : Journal σ} {s : Stored} {prev : ℕ} {sent : List Entry}

/-- With nothing to cut and nothing to add, nothing is written. -/
theorem appendFromLeader_of_merge (hmerge : j.log.merge sent = ⟨none, []⟩) :
    Ensures (Journal.appendFromLeader prev sent) j
      (fun reach j' => reach = prev + sent.length ∧ j' = j) fun _ => False := by
  unfold Journal.appendFromLeader
  rw [Ensures.get_bind_iff]
  dsimp only
  rw [hmerge]
  exact ⟨rfl, rfl⟩

/-- On every kind of disk the entries that a leader sends after an index of the log are
taken over: the log gives way at the first conflict, it grows by what it does not have,
and the disk follows. -/
theorem Keeps.takesOver (hretains : Storage.Retains Holds Writable fails)
    (h : j.Keeps Holds s) (hgapless : j.log.Gapless) (hprev : prev ≤ j.log.lastIndex)
    (hnumbered : NumberedFrom prev sent)
    (hfits : ∀ entry ∈ sent, entry.Fits Writable) :
    Ensures (Journal.appendFromLeader prev sent) j
      (fun reach j' => reach = prev + sent.length ∧ j.log.TakesOver sent j'.log ∧
        Storage.loadEntries j'.disk = .ok j'.log.entries ∧ j'.Keeps Holds s ∧
        (j.log.conflicts sent = ∅ → (∀ entry ∈ sent, entry.index ≤ j.log.lastIndex) →
          j' = j))
      fun _ => fails := by
  obtain ⟨kept, early, fresh, hmeets⟩ := hgapless.exists_meets hnumbered hprev
  have hmerge := hmeets.merge.imp_right fun ⟨hcut, hlt, _⟩ => And.intro hcut hlt
  have hfresh : ∀ entry ∈ fresh, entry.Fits Writable := fun entry hentry =>
    hfits entry (hmeets.split ▸ List.mem_append_right _ hentry)
  have htaken : Ensures (Journal.appendFromLeader prev sent) j _ _ :=
    h.appendFromLeader hretains hgapless hmeets.adjoins hmerge hfresh
  refine .of_runs (fun reach j' hrun => ?_) fun e j' hrun => htaken.error hrun
  obtain ⟨hreach, hlog, hkeeps⟩ := htaken.ok hrun
  refine ⟨hreach, hlog ▸ hmeets.takesOver_splice hgapless,
    hretains.loadEntries j'.disk _ hkeeps, hkeeps, fun hnone hlast => ?_⟩
  have hmerge := Log.merge_of_agrees hnone hgapless hlast
  exact ((appendFromLeader_of_merge hmerge).ok hrun).2

/-- A log whose snapshot ends at 2, with three entries of the first term after it. -/
def trailing : Journal Memory where
  log := ⟨[⟨1, 3, .noop⟩, ⟨1, 4, .command [4]⟩, ⟨1, 5, .command [5]⟩], 2, 1⟩
  disk := { entries := [⟨1, 3, .noop⟩, ⟨1, 4, .command [4]⟩, ⟨1, 5, .command [5]⟩] }

/-- What a leader of the second term sends: an entry that is covered, one that is held,
one in conflict, and what follows it. -/
def overruling : List Entry :=
  [⟨1, 2, .noop⟩, ⟨1, 3, .noop⟩, ⟨2, 4, .noop⟩, ⟨2, 5, .command [6]⟩, ⟨2, 6, .noop⟩]

theorem isLeast_overruling : IsLeast (trailing.log.conflicts overruling) 4 := by
  refine ⟨⟨⟨2, 4, .noop⟩, by decide, rfl, ⟨1, 4, .command [4]⟩, rfl, by decide⟩, ?_⟩
  have hagrees : ∀ entry ∈ overruling, entry.index < 4 →
      ∀ own ∈ trailing.log.get? entry.index, own.term = entry.term := by decide
  rintro index ⟨entry, hentry, rfl, own, hown, hterm⟩
  by_contra hlt
  exact hterm (hagrees entry hentry (not_le.mp hlt) own hown)

/-- The case of a conflict at the second entry that is left. -/
theorem takesOver_overruling :
    Ensures (Journal.appendFromLeader 1 overruling) trailing
      (fun reach j' => reach = 6 ∧
        j'.log.entries = ⟨1, 3, .noop⟩ :: overruling.drop 2 ∧
        Storage.loadEntries j'.disk = .ok j'.log.entries)
      fun _ => False := by
  have hnumbered : NumberedFrom 1 overruling :=
    .cons rfl (.cons rfl (.cons rfl (.cons rfl (.cons rfl (.nil 6)))))
  have hgapless : trailing.log.Gapless :=
    .cons rfl (.cons rfl (.cons rfl (.nil 5)))
  have hkeeps : trailing.Keeps Memory.Retaining trailing.disk.stored :=
    ⟨⟨rfl, rfl⟩, rfl⟩
  have hall : ∀ entry ∈ overruling, entry.Fits fun _ => True := fun entry _ =>
    entry.fits_of_all fun _ => trivial
  refine (Keeps.takesOver retains_clean hkeeps hgapless (by decide) hnumbered hall).imp ?_
  rintro reach j' ⟨hreach, htaken, hload, -, -⟩
  exact ⟨hreach, htaken.replaced 4 isLeast_overruling, hload⟩

end Journal

end Consensus
