import Consensus.Node.Recovery
import Consensus.Proofs.Entries
import Consensus.Proofs.Gapless

/-!
# The membership that a log dictates

The last membership that is applied is in force, or if there is none the one that
the log starts from.  The last one that is not applied yet is pending.

A node keeps both up to date while its log changes.  Here is shown, for each way
in which a log changes, what becomes of the membership that it dictates, and that
a node that starts finds the same by going through its log.
-/

namespace Consensus

/-! ## Up to an index, and after it -/

namespace Log

variable {log : Log} {index kept : ℕ} {entry : Entry} {fresh : List Entry}

/-- The entries up to the index. -/
def entriesUpTo (log : Log) (index : ℕ) : List Entry :=
  log.entries.filter fun e => decide (e.index ≤ index)

/-- The entries after one index, up to another. -/
def entriesBetween (log : Log) (early late : ℕ) : List Entry :=
  (log.entriesUpTo late).filter fun e => decide (early < e.index)

theorem Gapless.entriesUpTo_eq (h : log.Gapless) (index : ℕ) :
    log.entriesUpTo index = log.entries.take (index - log.snapshotIndex) := by
  have hfilter := h.filter_index_lt (index + 1)
  rw [show index + 1 - log.snapshotIndex - 1 = index - log.snapshotIndex by omega]
    at hfilter
  rw [← hfilter]
  apply List.filter_congr
  intro e _
  exact decide_eq_decide.mpr Nat.lt_succ_iff.symm

theorem Gapless.entriesAfter_eq (h : log.Gapless) (index : ℕ) :
    log.entriesAfter index = log.entries.drop (index - log.snapshotIndex) :=
  h.filter_lt_index index

/-- No entry lies up to the boundary. -/
theorem Gapless.entriesUpTo_boundary (h : log.Gapless) :
    log.entriesUpTo log.snapshotIndex = [] := by
  rw [h.entriesUpTo_eq, Nat.sub_self, List.take_zero]

theorem Gapless.entriesUpTo_splice (h : log.Gapless)
    (hadjoins : log.Adjoins kept fresh) (hle : index ≤ kept) :
    (log.splice kept fresh).entriesUpTo index = log.entriesUpTo index := by
  have hlength := h.length_take_kept hadjoins.le_last
  rw [(h.splice hadjoins).entriesUpTo_eq, h.entriesUpTo_eq]
  change (log.entries.take (kept - log.snapshotIndex) ++ fresh).take
    (index - log.snapshotIndex) = _
  rw [List.take_append_of_le_length (by omega), List.take_take,
    min_eq_left (by omega)]

theorem Gapless.entriesAfter_dropThrough (h : log.Gapless)
    (hle : log.snapshotIndex ≤ index) (term : ℕ) :
    (log.dropThrough index term).entriesAfter index =
      log.entriesAfter index := by
  rw [(h.dropThrough hle term).entriesAfter_eq, h.entriesAfter_eq,
    snapshotIndex_dropThrough, Nat.sub_self, List.drop_zero]
  rfl

theorem Gapless.entriesUpTo_append (h : log.Gapless) {early late : ℕ}
    (hle : log.snapshotIndex ≤ early) (hlate : early ≤ late) :
    log.entriesUpTo late =
      log.entriesUpTo early ++ log.entriesBetween early late := by
  have hdrop : log.entriesBetween early late =
      (log.entriesUpTo late).drop (early - log.snapshotIndex) := by
    unfold entriesBetween
    rw [h.entriesUpTo_eq]
    exact (h.take _).filter_lt_index early
  have htake : log.entriesUpTo early =
      (log.entriesUpTo late).take (early - log.snapshotIndex) := by
    rw [h.entriesUpTo_eq, h.entriesUpTo_eq, List.take_take,
      min_eq_left (by omega)]
  rw [hdrop, htake, List.take_append_drop]

theorem entriesAfter_push (hlt : index < entry.index) :
    (log.push entry).entriesAfter index = log.entriesAfter index ++ [entry] := by
  change (log.entries ++ [entry]).filter _ = _
  rw [List.filter_append, List.filter_singleton, decide_eq_true hlt]
  rfl

/-- The next entry comes last of those up to it, and first of those after the one
before it. -/
theorem Gapless.entriesUpTo_succ (h : log.Gapless)
    (hle : log.snapshotIndex ≤ index) (hget : log.get? (index + 1) = some entry) :
    log.entriesUpTo (index + 1) = log.entriesUpTo index ++ [entry] ∧
      log.entriesAfter index = entry :: log.entriesAfter (index + 1) := by
  rw [get?_of_lt (Nat.lt_succ_of_le hle),
    show index + 1 - log.snapshotIndex - 1 = index - log.snapshotIndex by omega]
    at hget
  have hnext : index + 1 - log.snapshotIndex = index - log.snapshotIndex + 1 := by
    omega
  constructor
  · rw [h.entriesUpTo_eq, h.entriesUpTo_eq, hnext, List.take_add_one, hget]
    rfl
  · obtain ⟨hlength, hentry⟩ := List.getElem?_eq_some_iff.mp hget
    rw [h.entriesAfter_eq, h.entriesAfter_eq, hnext,
      List.drop_eq_getElem_cons hlength, hentry]

end Log

namespace Membership

/-! ## The last change -/

theorem lastConfig?_append (xs ys : List Entry) :
    lastConfig? (xs ++ ys) = (lastConfig? ys).or (lastConfig? xs) := by
  unfold lastConfig?
  rw [List.filterMap_append, List.getLast?_append]

theorem lastConfig?_single (entry : Entry) :
    lastConfig? [entry] =
      entry.config?.map fun members => (entry.index, members) := by
  unfold lastConfig?
  rw [List.filterMap_cons, List.filterMap_nil]
  cases entry.config? with
  | none => rfl
  | some members => rfl

theorem lastConfig?_append_single (entries : List Entry) (entry : Entry) :
    lastConfig? (entries ++ [entry]) =
      match entry.config? with
      | some members => some (entry.index, members)
      | none => lastConfig? entries := by
  rw [lastConfig?_append, lastConfig?_single]
  cases entry.config? with
  | none => rfl
  | some members => rfl

/-- The last change is one of the entries. -/
theorem exists_of_lastConfig? {entries : List Entry} {change : ℕ × NodeSet}
    (h : lastConfig? entries = some change) :
    ∃ entry ∈ entries, entry.index = change.1 ∧
      entry.config? = some change.2 := by
  obtain ⟨entry, hentry, hchange⟩ :=
    List.mem_filterMap.mp (List.mem_of_getLast? h)
  obtain ⟨members, hmembers, rfl⟩ := Option.map_eq_some_iff.mp hchange
  exact ⟨entry, hentry, rfl, hmembers⟩

/-- Of entries that follow one another, only the first is not after it. -/
theorem filter_lastConfig?_cons {base : ℕ} {entry : Entry}
    {entries : List Entry} (h : NumberedFrom base (entry :: entries)) :
    (lastConfig? (entry :: entries)).filter
        (fun p => decide (entry.index < p.1)) = lastConfig? entries := by
  have hcons : lastConfig? (entry :: entries) =
      (lastConfig? entries).or (lastConfig? [entry]) :=
    lastConfig?_append [entry] entries
  rw [hcons]
  cases hrest : lastConfig? entries with
  | none =>
      rw [Option.none_or, lastConfig?_single, Option.filter_eq_none_iff]
      intro change hchange
      obtain ⟨members, -, rfl⟩ := Option.map_eq_some_iff.mp hchange
      simp
  | some change =>
      obtain ⟨later, hlater, hindex, -⟩ := exists_of_lastConfig? hrest
      have hlt := (h.tail.index_of_mem hlater).1
      rw [← h.head, hindex] at hlt
      exact Option.filter_some_pos (decide_eq_true hlt)

/-- The last change is the one in force afterwards. -/
theorem membersAfter_eq_lastConfig? (base : NodeSet) (entries : List Entry) :
    membersAfter base entries =
      ((lastConfig? entries).map (·.2)).getD base := by
  induction entries using List.reverseRecOn with
  | nil => rfl
  | append_singleton entries entry ih =>
      rw [membersAfter_append_single, lastConfig?_append_single, ih]
      cases entry.config? with
      | none => rfl
      | some members => rfl

end Membership

/-- The last change is not before any other. -/
theorem NumberedFrom.lastConfig? {base : ℕ} {entries : List Entry}
    (h : NumberedFrom base entries) :
    ∀ entry ∈ entries, entry.config?.isSome →
      ∃ change, Membership.lastConfig? entries = some change ∧
        entry.index ≤ change.1 := by
  induction entries using List.reverseRecOn with
  | nil => simp
  | append_singleton entries last ih =>
      have hlast : last.index = base + entries.length + 1 :=
        h entries.length last (by simp)
      have hrest : NumberedFrom base entries := fun k entry hk =>
        h k entry (by
          rw [List.getElem?_append_left (List.getElem?_eq_some_iff.mp hk).1]
          exact hk)
      intro entry hentry hconfig
      rw [Membership.lastConfig?_append_single]
      rw [List.mem_append, List.mem_singleton] at hentry
      rcases hentry with hold | rfl
      · obtain ⟨k, hk⟩ := List.mem_iff_getElem?.mp hold
        have hindex := hrest k entry hk
        have hlt := (List.getElem?_eq_some_iff.mp hk).1
        cases hmembers : last.config? with
        | none => exact ih hrest entry hold hconfig
        | some members =>
            exact ⟨(last.index, members), rfl, by simp only; omega⟩
      · obtain ⟨members, hmembers⟩ := Option.isSome_iff_exists.mp hconfig
        rw [hmembers]
        exact ⟨(entry.index, members), rfl, le_rfl⟩

namespace Membership

/-! ## What a log dictates -/

/-- The membership of a node that has applied its log up to an index, where the
log starts from the given members. -/
def dictated (base : NodeSet) (log : Log) (applied : ℕ) : Membership where
  committed := ((lastConfig? (log.entriesUpTo applied)).map (·.2)).getD base
  pending := lastConfig? (log.entriesAfter applied)

variable {base : NodeSet} {log : Log} {applied kept : ℕ} {entry : Entry}
  {fresh : List Entry}

/-- What comes after an index that is not applied yet decides on what is
pending. -/
theorem dictated_splice (h : log.Gapless) (hadjoins : log.Adjoins kept fresh)
    (hle : applied ≤ kept) : dictated base (log.splice kept fresh) applied =
      (dictated base log applied).refreshPending
        ((log.splice kept fresh).entriesAfter applied) := by
  unfold dictated refreshPending
  rw [h.entriesUpTo_splice hadjoins hle]

/-- A new entry is pending if it is a change. -/
theorem dictated_push (h : log.Gapless) (hlast : applied ≤ log.lastIndex)
    (hindex : entry.index = log.lastIndex + 1) :
    dictated base (log.push entry) applied =
      match entry.config? with
      | some members => (dictated base log applied).onAppend entry.index members
      | none => dictated base log applied := by
  have hlt : applied < entry.index := by omega
  rw [h.push_eq, dictated_splice h (h.adjoins_single hindex) hlast, ← h.push_eq,
    Log.entriesAfter_push hlt]
  unfold refreshPending
  rw [lastConfig?_append_single]
  cases entry.config? with
  | some members => rfl
  | none => rfl

/-- The next entry takes over if it is a change. -/
theorem dictated_succ (h : log.Gapless) (hle : log.snapshotIndex ≤ applied)
    (hget : log.get? (applied + 1) = some entry) :
    dictated base log (applied + 1) =
      match entry.config? with
      | some members => (dictated base log applied).onCommit entry.index members
      | none => dictated base log applied := by
  obtain ⟨hupTo, hafter⟩ := h.entriesUpTo_succ hle hget
  have hnumbered : NumberedFrom applied (entry :: log.entriesAfter (applied + 1)) := by
    have hskip := h.skip (applied - log.snapshotIndex)
    rw [Nat.add_sub_cancel' hle, ← h.entriesAfter_eq, hafter] at hskip
    exact hskip
  have hfilter := filter_lastConfig?_cons hnumbered
  unfold dictated
  rw [hupTo, hafter, lastConfig?_append_single]
  cases hconfig : entry.config? with
  | some members =>
      unfold onCommit
      rw [hfilter]
      rfl
  | none =>
      have hcons : lastConfig? (entry :: log.entriesAfter (applied + 1)) =
          (lastConfig? (log.entriesAfter (applied + 1))).or
            (lastConfig? [entry]) :=
        lastConfig?_append [entry] _
      rw [hcons, lastConfig?_single, hconfig, Option.map_none, Option.or_none]

/-- A later change takes over. -/
theorem committed_dictated (h : log.Gapless) {early late : ℕ}
    (hle : log.snapshotIndex ≤ early) (hlate : early ≤ late) :
    (dictated base log late).committed =
      ((lastConfig? (log.entriesBetween early late)).map (·.2)).getD
        (dictated base log early).committed := by
  unfold dictated
  dsimp only
  rw [h.entriesUpTo_append hle hlate, lastConfig?_append]
  cases lastConfig? (log.entriesBetween early late) with
  | none => rfl
  | some change => rfl

/-- A log that starts where it is applied dictates no other members than those
that it starts from. -/
theorem dictated_boundary (h : log.Gapless) (base : NodeSet) :
    dictated base log log.snapshotIndex =
      (settled base).refreshPending (log.entriesAfter log.snapshotIndex) := by
  unfold dictated
  rw [h.entriesUpTo_boundary]
  rfl

/-- Starting from what is applied instead, the log dictates the same. -/
theorem dictated_dropThrough (h : log.Gapless)
    (hle : log.snapshotIndex ≤ applied) (term : ℕ) :
    dictated (dictated base log applied).committed (log.dropThrough applied term)
      applied = dictated base log applied := by
  have hboundary := dictated_boundary (h.dropThrough hle term)
    (dictated base log applied).committed
  rw [Log.snapshotIndex_dropThrough, h.entriesAfter_dropThrough hle] at hboundary
  exact hboundary

/-! ## Going through a log -/

theorem committed_foldl_onCommit (m : Membership) (entries : List Entry) :
    (entries.foldl (fun m e => match e.config? with
      | some members => m.onCommit e.index members
      | none => m) m).committed = membersAfter m.committed entries := by
  induction entries generalizing m with
  | nil => rfl
  | cons entry entries ih =>
      have hcons : membersAfter m.committed (entry :: entries) =
          membersAfter (entry.config?.getD m.committed) entries := rfl
      rw [List.foldl_cons, ih, hcons]
      cases entry.config? with
      | some members => rfl
      | none => rfl

/-- The members after all that is applied. -/
theorem committed_recover (base : NodeSet) (log : Log) (applied : ℕ) :
    (Membership.recover base log applied).committed =
      membersAfter base ((log.entriesAfter log.snapshotIndex).takeWhile
        fun e => decide (e.index ≤ applied)) :=
  committed_foldl_onCommit (.settled base) _

/-- A node that starts finds the membership that its log dictates. -/
theorem recover_eq_dictated (h : log.Gapless) (base : NodeSet) (applied : ℕ) :
    Membership.recover base log applied = dictated base log applied := by
  have hreplayed : (log.entriesAfter log.snapshotIndex).takeWhile
      (fun e => decide (e.index ≤ applied)) = log.entriesUpTo applied := by
    rw [h.entriesAfter_eq, Nat.sub_self, List.drop_zero, h.takeWhile_index_le,
      h.entriesUpTo_eq]
  have hcommitted : (Membership.recover base log applied).committed =
      (dictated base log applied).committed := by
    rw [committed_recover, hreplayed, membersAfter_eq_lastConfig?]
    rfl
  calc Membership.recover base log applied
    _ = ⟨(Membership.recover base log applied).committed,
        lastConfig? (log.entriesAfter applied)⟩ := rfl
    _ = dictated base log applied := by
      rw [hcommitted]
      rfl

end Membership

end Consensus
