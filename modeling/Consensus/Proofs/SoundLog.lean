import Consensus.Proofs.Gapless

/-!
# Logs without flaws

The entries of a sound log follow its boundary without a gap, and terms never
fall.  A log is read off a disk if and only if it is sound.

Whatever a node does to its log replaces what comes after an index or drops what
a snapshot covers.  Both leave the log sound, provided that what is put after the
index follows the entry there.  What a leader sends does, once the entries that
the log already has are passed over.
-/

namespace Consensus

/-! ## Rising terms -/

/-- The terms start at `least` or above and never fall. -/
def Rising : ℕ → List Entry → Prop
  | _, [] => True
  | least, entry :: rest => least ≤ entry.term ∧ Rising entry.term rest

/-- The term of the last entry, or `start` without any. -/
def endTerm : ℕ → List Entry → ℕ
  | start, [] => start
  | _, entry :: rest => endTerm entry.term rest

theorem endTerm_concat (start : ℕ) (entries : List Entry) (entry : Entry) :
    endTerm start (entries ++ [entry]) = entry.term := by
  induction entries generalizing start with
  | nil => rfl
  | cons first rest ih => exact ih first.term

theorem rising_append_iff {least : ℕ} {xs ys : List Entry} :
    Rising least (xs ++ ys) ↔ Rising least xs ∧ Rising (endTerm least xs) ys := by
  induction xs generalizing least with
  | nil => simp [Rising, endTerm]
  | cons x xs ih =>
      change least ≤ x.term ∧ Rising x.term (xs ++ ys) ↔ _
      rw [ih, ← and_assoc]
      rfl

/-- Entries have no flaw exactly if they are numbered and their terms rise. -/
theorem firstFlaw?_eq_none_iff {base least : ℕ} {entries : List Entry} :
    Log.firstFlaw? (base + 1) least entries = none ↔
      NumberedFrom base entries ∧ Rising least entries := by
  induction entries generalizing base least with
  | nil => exact iff_of_true rfl ⟨.nil base, trivial⟩
  | cons entry rest ih =>
      unfold Log.firstFlaw?
      by_cases hindex : entry.index = base + 1
      · rw [if_neg (not_not.mpr hindex)]
        by_cases hterm : entry.term < least
        · rw [if_pos hterm]
          refine iff_of_false (by simp) fun h => ?_
          exact absurd h.2.1 (not_le.mpr hterm)
        · rw [if_neg hterm, Counting.plus_eq, ih]
          constructor
          · rintro ⟨hnumbered, hrising⟩
            exact ⟨.cons hindex hnumbered, not_lt.mp hterm, hrising⟩
          · rintro ⟨hnumbered, -, hrising⟩
            exact ⟨hnumbered.tail, hrising⟩
      · rw [if_pos hindex]
        exact iff_of_false (by simp) fun h => hindex h.1.head

namespace Log

variable {log : Log} {index term bound kept : ℕ} {fresh : List Entry}

/-! ## Sound logs -/

/-- Nothing is missing between the boundary and the last entry, and terms never
fall. -/
structure Sound (log : Log) : Prop where
  numbered : NumberedFrom log.snapshotIndex log.entries
  rising : Rising log.snapshotTerm log.entries
  origin : log.snapshotIndex = 0 → log.snapshotTerm = 0

/-- No term in the log is beyond the bound. -/
structure Within (log : Log) (bound : ℕ) : Prop where
  boundary : log.snapshotTerm ≤ bound
  entries : ∀ entry ∈ log.entries, entry.term ≤ bound

theorem sound_base (hpos : 0 < index) (term : ℕ) : Sound ⟨[], index, term⟩ where
  numbered := .nil index
  rising := trivial
  origin hzero := absurd hzero hpos.ne'

theorem lastTerm_le (h : log.Within bound) : log.lastTerm ≤ bound := by
  unfold lastTerm
  cases hlast : log.entries.getLast? with
  | none => exact h.boundary
  | some entry => exact h.entries entry (List.mem_of_getLast? hlast)

theorem Within.mono (h : log.Within bound) {bound' : ℕ} (hle : bound ≤ bound') :
    log.Within bound' :=
  ⟨h.boundary.trans hle, fun entry hentry => (h.entries entry hentry).trans hle⟩

namespace Sound

theorem gapless (h : log.Sound) : log.Gapless := h.numbered

theorem lastIndex_eq (h : log.Sound) :
    log.lastIndex = log.snapshotIndex + log.entries.length :=
  h.gapless.lastIndex_eq

/-- From the boundary to the end, the log knows the term at every index. -/
theorem termAt?_eq (h : log.Sound) (hle : log.snapshotIndex ≤ index)
    (hlast : index ≤ log.lastIndex) :
    log.termAt? index = some (endTerm log.snapshotTerm
      (log.entries.take (index - log.snapshotIndex))) := by
  rw [h.lastIndex_eq] at hlast
  rcases hle.eq_or_lt with rfl | hlt
  · rw [Nat.sub_self, List.take_zero, endTerm]
    unfold termAt?
    by_cases hzero : log.snapshotIndex = 0
    · rw [if_pos hzero, h.origin hzero]
    · rw [if_neg hzero, if_pos rfl]
  · obtain ⟨k, hk⟩ : ∃ k, index - log.snapshotIndex = k + 1 :=
      ⟨index - log.snapshotIndex - 1, by omega⟩
    have hlength : k < log.entries.length := by omega
    rw [termAt?_of_lt hlt, hk, Nat.add_sub_cancel,
      List.getElem?_eq_getElem hlength, List.take_succ_eq_append_getElem hlength,
      endTerm_concat]
    rfl

theorem le_lastIndex_of_termAt? (h : log.Sound)
    (hlt : log.snapshotIndex < index) (hterm : log.termAt? index = some term) :
    index ≤ log.lastIndex :=
  h.gapless.le_lastIndex_of_termAt? hlt hterm

theorem termAt?_of_mem (h : log.Sound) {entry : Entry}
    (hentry : entry ∈ log.entries) :
    log.termAt? entry.index = some entry.term := by
  have hlt := (h.numbered.index_of_mem hentry).1
  rw [termAt?_eq_get? hlt, h.gapless.get?_of_mem hentry]
  rfl

theorem exists_mem_of_termAt? (h : log.Sound) (hlt : log.snapshotIndex < index)
    (hterm : log.termAt? index = some term) :
    ∃ entry ∈ log.entries, entry.index = index ∧ entry.term = term := by
  rw [termAt?_eq_get? hlt] at hterm
  obtain ⟨entry, hentry, rfl⟩ := Option.map_eq_some_iff.mp hterm
  exact ⟨entry, mem_of_get? hentry, (h.gapless.range_of_get? hentry).2.2, rfl⟩

theorem termAt?_le (h : log.Sound) (hwithin : log.Within bound)
    (hterm : log.termAt? index = some term) : term ≤ bound := by
  rcases lt_or_ge log.snapshotIndex index with hlt | hle
  · obtain ⟨entry, hentry, -, rfl⟩ := h.exists_mem_of_termAt? hlt hterm
    exact hwithin.entries entry hentry
  · unfold termAt? at hterm
    split at hterm
    · obtain rfl : 0 = term := by simpa using hterm
      exact Nat.zero_le _
    · split at hterm
      · obtain rfl : log.snapshotTerm = term := by simpa using hterm
        exact hwithin.boundary
      · rw [get?, if_pos hle] at hterm
        exact absurd hterm (by simp)

end Sound

/-! ## Replacing what comes after an index -/

/-- The entries may be put after the index: they follow the entry there. -/
structure Follows (log : Log) (kept : ℕ) (fresh : List Entry) : Prop
    extends log.Adjoins kept fresh where
  rising : ∀ term, log.termAt? kept = some term → Rising term fresh

theorem follows_nil (hle : log.snapshotIndex ≤ kept)
    (hlast : kept ≤ log.lastIndex) : log.Follows kept [] :=
  ⟨⟨hle, hlast, .nil kept⟩, fun _ _ => trivial⟩

theorem Sound.boundary_le_last (h : log.Sound) :
    log.snapshotIndex ≤ log.lastIndex :=
  h.gapless.boundary_le_last

theorem Sound.splice (h : log.Sound) (hfollows : log.Follows kept fresh) :
    (log.splice kept fresh).Sound where
  numbered := h.gapless.splice hfollows.toAdjoins
  rising := by
    have hall : Rising log.snapshotTerm
        (log.entries.take (kept - log.snapshotIndex) ++
          log.entries.drop (kept - log.snapshotIndex)) := by
      rw [List.take_append_drop]
      exact h.rising
    refine rising_append_iff.mpr ⟨(rising_append_iff.mp hall).1, ?_⟩
    exact hfollows.rising _ (h.termAt?_eq hfollows.boundary_le hfollows.le_last)
  origin := h.origin

theorem Within.splice (h : log.Within bound)
    (hfresh : ∀ entry ∈ fresh, entry.term ≤ bound) :
    (log.splice kept fresh).Within bound where
  boundary := h.boundary
  entries entry hentry := by
    rcases List.mem_append.mp hentry with hold | hnew
    · exact h.entries entry (List.mem_of_mem_take hold)
    · exact hfresh entry hnew

/-- A new entry of a term that is not behind. -/
theorem Sound.follows_single (h : log.Sound) {entry : Entry}
    (hindex : entry.index = log.lastIndex + 1) (hwithin : log.Within entry.term) :
    log.Follows log.lastIndex [entry] :=
  ⟨h.gapless.adjoins_single hindex,
    fun _ hterm => ⟨h.termAt?_le hwithin hterm, trivial⟩⟩

/-! ## Dropping what a snapshot covers -/

theorem Sound.dropThrough (h : log.Sound) (hle : log.snapshotIndex ≤ index)
    (hlast : index ≤ log.lastIndex) (hterm : log.termAt? index = some term) :
    (log.dropThrough index term).Sound where
  numbered := h.gapless.dropThrough hle term
  rising := by
    have hall : Rising log.snapshotTerm
        (log.entries.take (index - log.snapshotIndex) ++
          log.entries.drop (index - log.snapshotIndex)) := by
      rw [List.take_append_drop]
      exact h.rising
    obtain rfl := Option.some.inj (hterm.symm.trans (h.termAt?_eq hle hlast))
    exact (rising_append_iff.mp hall).2
  origin hzero := by
    obtain rfl : index = 0 := hzero
    obtain rfl : 0 = term := by simpa [termAt?] using hterm
    rfl

/-! ## Joining what a leader sends -/

/-- The entries that a leader sends after an index, as the log would take them:
the early ones it has, and the fresh ones follow an index that it keeps. -/
structure Joins (log : Log) (committed : ℕ) (sent : List Entry) (kept : ℕ)
    (early fresh : List Entry) : Prop where
  split : sent = early ++ fresh
  follows : log.Follows kept fresh
  held : ∀ entry ∈ early, log.snapshotIndex < entry.index →
    entry.index ≤ kept ∧ log.termAt? entry.index = some entry.term
  merge : log.merge sent = ⟨none, fresh⟩ ∧ kept = log.lastIndex ∨
    log.merge sent = ⟨some (kept + 1), fresh⟩ ∧ committed ≤ kept ∧
      kept < log.lastIndex

/-- Entries that follow one another and do not contradict what is committed join
the log, if the log agrees with the leader where they begin. -/
theorem Sound.exists_joins (h : log.Sound) {committed prev prevTerm : ℕ}
    {sent : List Entry} (hcommitted : log.snapshotIndex ≤ committed)
    (hnumbered : NumberedFrom prev sent) (hrising : Rising prevTerm sent)
    (hmatches : log.matchesAt prev prevTerm = true)
    (hagrees : ∀ entry ∈ sent, entry.index ≤ committed →
      ∀ term, log.termAt? entry.index = some term → term = entry.term) :
    ∃ kept early fresh, prev ≤ kept ∧
      log.Joins committed sent kept early fresh := by
  obtain ⟨kept, early, fresh, hmeets⟩ := h.gapless.exists_meets hnumbered
    (h.gapless.le_last_of_matchesAt hmatches)
  have hrising : Rising prevTerm early ∧ Rising (endTerm prevTerm early) fresh :=
    rising_append_iff.mp (hmeets.split ▸ hrising)
  -- the entry before the fresh ones was sent as well, or is where all begin
  have hbefore : fresh ≠ [] → ∀ term, log.termAt? kept = some term →
      term = endTerm prevTerm early := by
    intro hfresh term hterm
    have hplace := hmeets.place hfresh
    have hboundary := hmeets.adjoins.boundary_le
    rcases List.eq_nil_or_concat early with rfl | ⟨firsts, last, rfl⟩
    · obtain rfl : kept = prev := hplace
      have hprev := (matchesAt_iff.mp hmatches).resolve_left hboundary.not_gt
      exact Option.some.inj (hterm.symm.trans hprev)
    · rw [List.concat_eq_append] at hmeets hplace ⊢
      rw [List.length_append, List.length_singleton] at hplace
      have hin : last ∈ firsts ++ [last] :=
        List.mem_append_right _ List.mem_cons_self
      have hat : (firsts ++ [last] ++ fresh)[firsts.length]? = some last := by
        rw [List.append_assoc, List.getElem?_append_right le_rfl, Nat.sub_self]
        rfl
      have hindex : last.index = kept := by
        have hnumber := hnumbered firsts.length last (hmeets.split ▸ hat)
        omega
      rw [endTerm_concat]
      rcases hboundary.eq_or_lt with heq | hlt
      · refine hagrees last ?_ (by omega) term (hindex ▸ hterm)
        rw [hmeets.split]
        exact List.mem_append_left _ hin
      · have hheld := (hmeets.held last hin (by omega)).2
        rw [hindex] at hheld
        exact Option.some.inj (hterm.symm.trans hheld)
  have hfollows : log.Follows kept fresh := by
    refine ⟨hmeets.adjoins, fun term hterm => ?_⟩
    by_cases hfresh : fresh = []
    · rw [hfresh]
      trivial
    · rw [hbefore hfresh term hterm]
      exact hrising.2
  refine ⟨kept, early, fresh, hmeets.prev_le, hmeets.split, hfollows,
    hmeets.held, hmeets.merge.imp_right ?_⟩
  rintro ⟨hcut, hlt, entry, hentry, hindex, term, hterm, hconflict⟩
  refine ⟨hcut, ?_, hlt⟩
  by_contra hbehind
  exact hconflict (hagrees entry hentry (by omega) term hterm)

/-! ## Where entries come from -/

/-- Up to an index everything comes from an old log, which has the boundary too;
the rest was brought. -/
structure Descends (log old : Log) (brought : Entry → Prop) (shared : ℕ) :
    Prop where
  boundary : log.snapshotIndex ≤ shared →
    old.termAt? log.snapshotIndex = some log.snapshotTerm
  old : ∀ entry ∈ log.entries, entry.index ≤ shared → entry ∈ old.entries
  new : ∀ entry ∈ log.entries, shared < entry.index → brought entry

section

variable {old : Log} {brought : Entry → Prop} {shared : ℕ}

theorem Sound.descends (h : log.Sound) :
    log.Descends log brought log.lastIndex where
  boundary hle := by
    rw [h.termAt?_eq le_rfl hle, Nat.sub_self, List.take_zero, endTerm]
  old _ hentry _ := hentry
  new entry hentry hlt := by
    have hle := (h.numbered.index_of_mem hentry).2.1
    rw [h.lastIndex_eq] at hlt
    omega

theorem descends_base (hpos : 0 < index) (term : ℕ) :
    Descends ⟨[], index, term⟩ old brought 0 where
  boundary hle := absurd hle (not_le.mpr hpos)
  old _ hentry := absurd hentry List.not_mem_nil
  new _ hentry := absurd hentry List.not_mem_nil

namespace Descends

theorem splice (hdescends : log.Descends old brought shared) (h : log.Sound)
    (hfollows : log.Follows kept fresh) (hnew : ∀ entry ∈ fresh, brought entry) :
    (log.splice kept fresh).Descends old brought (min shared kept) where
  boundary hle := hdescends.boundary (hle.trans (min_le_left _ _))
  old entry hentry hle := by
    rw [Nat.le_min] at hle
    rcases h.gapless.mem_splice hentry with ⟨hin, -⟩ | hin
    · exact hdescends.old entry hin hle.1
    · have hlt := (hfollows.numbered.index_of_mem hin).1
      exact absurd hle.2 (not_le.mpr hlt)
  new entry hentry hlt := by
    rcases h.gapless.mem_splice hentry with ⟨hin, hle⟩ | hin
    · exact hdescends.new entry hin (by omega)
    · exact hnew entry hin

theorem dropThrough (hdescends : log.Descends old brought shared) (h : log.Sound)
    (hold : old.Sound) (hle : log.snapshotIndex ≤ index)
    (hterm : log.termAt? index = some term) :
    (log.dropThrough index term).Descends old brought shared where
  boundary hshared := by
    change old.termAt? index = some term
    have hshared : index ≤ shared := hshared
    rcases hle.eq_or_lt with rfl | hlt
    · rw [hdescends.boundary hshared, ← hterm,
        h.termAt?_eq le_rfl h.boundary_le_last, Nat.sub_self, List.take_zero,
        endTerm]
    · obtain ⟨entry, hentry, rfl, rfl⟩ := h.exists_mem_of_termAt? hlt hterm
      exact hold.termAt?_of_mem (hdescends.old entry hentry hshared)
  old entry hentry := hdescends.old entry (h.gapless.mem_dropThrough hle hentry).1
  new entry hentry := hdescends.new entry (h.gapless.mem_dropThrough hle hentry).1

/-- An entry after the boundary comes from the old log, which had the boundary,
or it was brought. -/
theorem comes (hdescends : log.Descends old brought shared) (h : log.Sound)
    {entry : Entry} (hentry : entry ∈ log.entries) :
    entry ∈ old.entries ∧
      old.termAt? log.snapshotIndex = some log.snapshotTerm ∨ brought entry := by
  rcases le_or_gt entry.index shared with hle | hlt
  · have hbeyond := (h.numbered.index_of_mem hentry).1
    exact Or.inl ⟨hdescends.old entry hentry hle,
      hdescends.boundary (hbeyond.le.trans hle)⟩
  · exact Or.inr (hdescends.new entry hentry hlt)

end Descends

end

/-! ## A new boundary -/

/-- The log as it is with a snapshot that ends at the index in the term: nothing
new is in it. -/
structure Rebased (log : Log) (index term : ℕ) (log' : Log) : Prop where
  sound : log'.Sound
  index_eq : log'.snapshotIndex = index
  term_eq : log'.snapshotTerm = term
  subset : ∀ entry ∈ log'.entries, entry ∈ log.entries
  descends : ∀ {old : Log} {brought : Entry → Prop} {shared : ℕ}, old.Sound →
    log.Descends old brought shared →
      ∃ shared', log'.Descends old brought shared'

theorem Sound.rebased_dropThrough (h : log.Sound)
    (hle : log.snapshotIndex ≤ index) (hterm : log.termAt? index = some term) :
    log.Rebased index term (log.dropThrough index term) where
  sound := by
    refine h.dropThrough hle ?_ hterm
    rcases hle.eq_or_lt with rfl | hlt
    · exact h.boundary_le_last
    · exact h.le_lastIndex_of_termAt? hlt hterm
  index_eq := rfl
  term_eq := rfl
  subset _ hentry := List.mem_of_mem_drop hentry
  descends hold hdescends := ⟨_, hdescends.dropThrough h hold hle hterm⟩

theorem rebased_base (log : Log) (hpos : 0 < index) (term : ℕ) :
    log.Rebased index term ⟨[], index, term⟩ where
  sound := sound_base hpos term
  index_eq := rfl
  term_eq := rfl
  subset _ hentry := absurd hentry List.not_mem_nil
  descends _ _ := ⟨0, descends_base hpos term⟩

namespace Rebased

variable {log' : Log}

theorem within (h : log.Rebased index term log') (hwithin : log.Within bound)
    (hterm : term ≤ bound) : log'.Within bound where
  boundary := h.term_eq ▸ hterm
  entries entry hentry := hwithin.entries entry (h.subset entry hentry)

theorem le_lastIndex (h : log.Rebased index term log') :
    index ≤ log'.lastIndex :=
  h.index_eq ▸ h.sound.boundary_le_last

end Rebased

end Log

end Consensus
