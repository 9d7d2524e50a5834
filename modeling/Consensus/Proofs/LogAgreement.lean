import Consensus.Proofs.Gapless
import Mathlib.Order.MinMax

/-!
# Logs that agree

Two logs agree at an index if they have nothing different there: neither another
entry nor another term, as far as both of them reach back.  They cohere if they
agree up to every entry that both hold with one term.

A log that coheres with the log of a leader goes on to do so when it takes over
entries of the leader or forgets what a snapshot covers, and then agrees with it as
far as the leader has sent.
-/

namespace Consensus

namespace Log

variable {log other old new : Log} {index term kept prev : ℕ} {entry : Entry}

/-! ## Agreement -/

/-- Nothing different is known of the index. -/
structure AgreesAt (log other : Log) (index : ℕ) : Prop where
  entry : ∀ a b, log.get? index = some a → other.get? index = some b → a = b
  term : ∀ s t, log.termAt? index = some s → other.termAt? index = some t → s = t

/-- Nothing different is known of any index up to this one. -/
def AgreesUpTo (log other : Log) (index : ℕ) : Prop :=
  ∀ i ≤ index, log.AgreesAt other i

/-- Up to an entry that both logs have in one term they agree. -/
def Coheres (log other : Log) : Prop :=
  ∀ i a b, log.get? i = some a → other.get? i = some b → a.term = b.term →
    log.AgreesUpTo other i

theorem AgreesUpTo.of_le (h : log.AgreesUpTo other index) {bound : ℕ}
    (hle : bound ≤ index) : log.AgreesUpTo other bound :=
  fun i hi => h i (hi.trans hle)

theorem get?_of_le (hle : index ≤ log.snapshotIndex) : log.get? index = none :=
  if_pos hle

theorem lt_of_get? (hget : log.get? index = some entry) :
    log.snapshotIndex < index := by
  by_contra hle
  exact absurd ((get?_of_le (not_lt.mp hle)).symm.trans hget) (by simp)

theorem termAt?_of_get? (hget : log.get? index = some entry) :
    log.termAt? index = some entry.term := by
  rw [termAt?_eq_get? (lt_of_get? hget), hget]
  rfl

theorem exists_get?_of_termAt? (hlt : log.snapshotIndex < index)
    (hterm : log.termAt? index = some term) :
    ∃ entry, log.get? index = some entry ∧ entry.term = term := by
  rw [termAt?_eq_get? hlt] at hterm
  exact Option.map_eq_some_iff.mp hterm

/-- At a boundary only the terms can differ. -/
theorem agreesAt_of_le
    (hle : index ≤ log.snapshotIndex ∨ index ≤ other.snapshotIndex)
    (hterm : ∀ s t, log.termAt? index = some s → other.termAt? index = some t →
      s = t) : log.AgreesAt other index where
  entry a b ha hb := by
    have hlog := lt_of_get? ha
    have hother := lt_of_get? hb
    omega
  term := hterm

/-- Of an index before a boundary nothing is known. -/
theorem agreesAt_of_lt
    (hlt : index < log.snapshotIndex ∨ index < other.snapshotIndex) :
    log.AgreesAt other index := by
  apply agreesAt_of_le (hlt.imp le_of_lt le_of_lt)
  intro s t hs ht
  rcases Nat.eq_zero_or_pos index with rfl | hpos
  · exact Option.some.inj (hs.symm.trans ht)
  · rcases hlt with hlt | hlt
    · exact absurd (hs.symm.trans (termAt?_of_covered hpos hlt)) (by simp)
    · exact absurd (ht.symm.trans (termAt?_of_covered hpos hlt)) (by simp)

/-- Logs that cohere and have one term at an index agree up to there. -/
theorem Coheres.upTo_of_termAt? (h : log.Coheres other)
    (hlog : log.termAt? index = some term)
    (hother : other.termAt? index = some term) : log.AgreesUpTo other index := by
  intro i hi
  by_cases hbefore : i < log.snapshotIndex ∨ i < other.snapshotIndex
  · exact agreesAt_of_lt hbefore
  by_cases hbase : index ≤ log.snapshotIndex ∨ index ≤ other.snapshotIndex
  · obtain rfl : i = index := by omega
    apply agreesAt_of_le hbase
    intro s t hs ht
    rw [hlog] at hs
    rw [hother] at ht
    exact (Option.some.inj hs).symm.trans (Option.some.inj ht)
  · obtain ⟨a, ha, haterm⟩ := exists_get?_of_termAt? (by omega) hlog
    obtain ⟨b, hb, hbterm⟩ := exists_get?_of_termAt? (by omega) hother
    exact h index a b ha hb (haterm.trans hbterm.symm) i hi

/-! ## Forgetting -/

/-- A log that knows nothing but what another one knows. -/
structure Recalls (log old : Log) : Prop where
  entry : ∀ i e, log.get? i = some e → old.get? i = some e
  term : ∀ i t, log.termAt? i = some t → old.termAt? i = some t

theorem AgreesAt.recalls (h : log.AgreesAt old index) (hrecalls : new.Recalls old) :
    log.AgreesAt new index where
  entry a b ha hb := h.entry a b ha (hrecalls.entry _ _ hb)
  term s t hs ht := h.term s t hs (hrecalls.term _ _ ht)

theorem AgreesUpTo.recalls (h : log.AgreesUpTo old index)
    (hrecalls : new.Recalls old) : log.AgreesUpTo new index :=
  fun i hi => (h i hi).recalls hrecalls

theorem Coheres.recalls (h : log.Coheres old) (hrecalls : new.Recalls old) :
    log.Coheres new :=
  fun i a b ha hb hterm =>
    (h i a b ha (hrecalls.entry i b hb) hterm).recalls hrecalls

theorem recalls_dropThrough (hle : log.snapshotIndex ≤ index)
    (hterm : log.termAt? index = some term) :
    (log.dropThrough index term).Recalls log := by
  have hentry : ∀ i e, (log.dropThrough index term).get? i = some e →
      log.get? i = some e := by
    intro i e he
    have hlt : index < i := lt_of_get? he
    rwa [get?_dropThrough hle hlt] at he
  constructor
  · exact hentry
  · intro i t ht
    rcases Nat.eq_zero_or_pos i with rfl | hpos
    · exact ht
    rcases lt_trichotomy i index with hbefore | rfl | hafter
    · exact absurd (ht.symm.trans (termAt?_of_covered hpos hbefore)) (by simp)
    · have hboundary : (log.dropThrough i term).termAt? i = some term := by
        unfold termAt?
        rw [if_neg hpos.ne', if_pos (snapshotIndex_dropThrough log i term).symm]
        rfl
      rwa [hterm, ← hboundary]
    · obtain ⟨e, he, rfl⟩ := exists_get?_of_termAt? hafter ht
      exact termAt?_of_get? (hentry i e he)

/-- A log that starts over knows no more than where it starts. -/
theorem coheres_base (log : Log) (index term : ℕ) :
    log.Coheres ⟨[], index, term⟩ := by
  intro i a b _ hb
  have hnone : get? ⟨[], index, term⟩ i = none := by
    unfold get?
    split
    · rfl
    · rfl
  exact absurd (hnone.symm.trans hb) (by simp)

/-! ## Sending -/

/-- The entries come after the index in the log. -/
structure Lends (log : Log) (prev : ℕ) (sent : List Entry) : Prop where
  numbered : NumberedFrom prev sent
  held : ∀ entry ∈ sent, log.get? entry.index = some entry

theorem entriesFrom_eq (hle : log.snapshotIndex ≤ prev) (count : ℕ) :
    log.entriesFrom (prev + 1) count =
      (log.entries.drop (prev - log.snapshotIndex)).take count := by
  rw [entriesFrom_eq_drop]
  congr 2
  omega

theorem Gapless.lends_entriesFrom (h : log.Gapless)
    (hle : log.snapshotIndex ≤ prev) (count : ℕ) :
    log.Lends prev (log.entriesFrom (prev + 1) count) := by
  rw [entriesFrom_eq hle]
  constructor
  · have hskip := (h.skip (prev - log.snapshotIndex)).take count
    rw [Nat.add_sub_cancel' hle] at hskip
    exact hskip
  · intro entry hentry
    exact h.get?_of_mem (List.mem_of_mem_drop (List.mem_of_mem_take hentry))

theorem Gapless.length_entriesFrom (h : log.Gapless)
    (hle : log.snapshotIndex ≤ prev) (count : ℕ) :
    (log.entriesFrom (prev + 1) count).length =
      min count (log.lastIndex - prev) := by
  rw [entriesFrom_eq hle, h.lastIndex_eq, List.length_take, List.length_drop]
  omega

/-! ## Taking over -/

section

variable {sent early fresh : List Entry}

/-- The early entries end where their number says. -/
theorem Meets.early_cases (hmeets : other.Meets prev sent kept early fresh)
    (hnumbered : NumberedFrom prev sent) :
    early = [] ∨ ∃ last ∈ early, last.index = prev + early.length := by
  rcases List.eq_nil_or_concat' early with hnil | ⟨first, last, hearly⟩
  · exact Or.inl hnil
  · have hlast : sent[first.length]? = some last := by
      rw [hmeets.split, hearly]
      simp
    have hindex := hnumbered _ last hlast
    refine Or.inr ⟨last, ?_, ?_⟩
    · rw [hearly]
      exact List.mem_append_right _ List.mem_cons_self
    · rw [hearly, List.length_append, List.length_singleton]
      omega

/-- The early entries lie in what is kept. -/
theorem Meets.early_le (hmeets : other.Meets prev sent kept early fresh)
    (hnumbered : NumberedFrom prev sent) : prev + early.length ≤ kept := by
  rcases hmeets.early_cases hnumbered with hnil | ⟨last, hin, hindex⟩
  · rw [hnil]
    exact hmeets.prev_le
  · rcases le_or_gt last.index other.snapshotIndex with hcovered | hlt
    · have hboundary := hmeets.adjoins.boundary_le
      omega
    · have hkept := (hmeets.held last hin hlt).1
      omega

/-- All that was sent is there in the end. -/
theorem Meets.reach_le (hmeets : other.Meets prev sent kept early fresh)
    (hgapless : other.Gapless) (hnumbered : NumberedFrom prev sent) :
    prev + sent.length ≤ (other.splice kept fresh).lastIndex := by
  have hearly := hmeets.early_le hnumbered
  rw [hgapless.lastIndex_splice hmeets.adjoins, hmeets.split, List.length_append]
  omega

/-- Nothing is cut off up to where the logs agree. -/
theorem Meets.le_kept (hmeets : other.Meets prev sent kept early fresh)
    (hlends : log.Lends prev sent) (hagrees : log.AgreesUpTo other index)
    (hlast : index ≤ other.lastIndex) : index ≤ kept := by
  rcases hmeets.merge with ⟨-, rfl⟩ |
    ⟨-, -, entry, hentry, hindex, term, hterm, hconflict⟩
  · exact hlast
  · by_contra hlt
    have hheld := termAt?_of_get? (hlends.held entry hentry)
    have hsame := (hagrees entry.index (by omega)).term _ _ hheld hterm
    exact hconflict hsame.symm

theorem AgreesUpTo.splice (h : log.AgreesUpTo other index)
    (hgapless : other.Gapless) (hlast : kept ≤ other.lastIndex)
    (hle : index ≤ kept) (fresh : List Entry) :
    log.AgreesUpTo (other.splice kept fresh) index := by
  intro i hi
  have hsame := h i hi
  constructor
  · intro a b ha hb
    rw [hgapless.get?_splice hlast (hi.trans hle)] at hb
    exact hsame.entry a b ha hb
  · intro s t hs ht
    rw [hgapless.termAt?_splice hlast (hi.trans hle)] at ht
    exact hsame.term s t hs ht

/-- The early entries are the leader's. -/
theorem Coheres.agreesUpTo_early (h : log.Coheres other)
    (hmeets : other.Meets prev sent kept early fresh)
    (hlends : log.Lends prev sent) (hprev : log.AgreesUpTo other prev)
    (hbase : log.AgreesUpTo other other.snapshotIndex) :
    log.AgreesUpTo other (prev + early.length) := by
  rcases hmeets.early_cases hlends.numbered with hnil | ⟨last, hin, hindex⟩
  · rw [hnil]
    exact hprev
  · rw [← hindex]
    rcases le_or_gt last.index other.snapshotIndex with hcovered | hlt
    · exact hbase.of_le hcovered
    · have hsent : last ∈ sent := by
        rw [hmeets.split]
        exact List.mem_append_left _ hin
      exact h.upTo_of_termAt? (termAt?_of_get? (hlends.held last hsent))
        (hmeets.held last hin hlt).2

/-- A log that takes over entries agrees with the other one as far as they go. -/
theorem Coheres.agreesUpTo_splice (h : log.Coheres other)
    (hgapless : other.Gapless)
    (hmeets : other.Meets prev sent kept early fresh)
    (hlends : log.Lends prev sent) (hprev : log.AgreesUpTo other prev)
    (hbase : log.AgreesUpTo other other.snapshotIndex) :
    log.AgreesUpTo (other.splice kept fresh) (prev + sent.length) := by
  have hearly := h.agreesUpTo_early hmeets hlends hprev hbase
  have hkept := hmeets.early_le hlends.numbered
  intro i hi
  rcases le_or_gt i (prev + early.length) with hle | hlt
  · exact hearly.splice hgapless hmeets.adjoins.le_last hkept fresh i hle
  -- a fresh entry is the same in both logs
  have hlength := congrArg List.length hmeets.split
  rw [List.length_append] at hlength
  have hfresh : fresh ≠ [] := by
    rintro rfl
    rw [List.length_nil] at hlength
    omega
  have hplace := hmeets.place hfresh
  obtain ⟨entry, hentry⟩ : ∃ entry, fresh[i - kept - 1]? = some entry :=
    ⟨_, List.getElem?_eq_getElem (by omega)⟩
  have hindex : entry.index = i := by
    have hnumbered := hmeets.adjoins.numbered _ entry hentry
    omega
  have hin := List.mem_of_getElem? hentry
  have hlog : log.get? i = some entry := by
    rw [← hindex]
    apply hlends.held
    rw [hmeets.split]
    exact List.mem_append_right _ hin
  have hother : (other.splice kept fresh).get? i = some entry := by
    rw [← hindex]
    apply (hgapless.splice hmeets.adjoins).get?_of_mem
    exact List.mem_append_right _ hin
  constructor
  · intro a b ha hb
    rw [hlog] at ha
    rw [hother] at hb
    exact (Option.some.inj ha).symm.trans (Option.some.inj hb)
  · intro s t hs ht
    rw [termAt?_of_get? hlog] at hs
    rw [termAt?_of_get? hother] at ht
    exact (Option.some.inj hs).symm.trans (Option.some.inj ht)

theorem recalls_splice_nil (log : Log) (kept : ℕ) :
    (log.splice kept []).Recalls log := by
  have hentry : ∀ i e, (log.splice kept []).get? i = some e →
      log.get? i = some e := by
    intro i e he
    have hspliced := lt_of_get? he
    have hlt : log.snapshotIndex < i := hspliced
    rw [get?_of_lt hspliced] at he
    change (log.entries.take _ ++ [])[_]? = some e at he
    rw [List.append_nil, List.getElem?_take] at he
    split at he
    · rw [get?_of_lt hlt]
      exact he
    · exact absurd he (by simp)
  constructor
  · exact hentry
  · intro i t ht
    rcases le_or_gt i log.snapshotIndex with hle | hlt
    · have hspliced : i ≤ (log.splice kept []).snapshotIndex := hle
      unfold termAt? at ht ⊢
      rw [get?_of_le hle]
      rwa [get?_of_le hspliced] at ht
    · have hspliced : (log.splice kept []).snapshotIndex < i := hlt
      obtain ⟨e, he, rfl⟩ := exists_get?_of_termAt? hspliced ht
      exact termAt?_of_get? (hentry i e he)

/-- A log that takes over entries still coheres with the other one. -/
theorem Coheres.splice (h : log.Coheres other) (hgapless : other.Gapless)
    (hmeets : other.Meets prev sent kept early fresh)
    (hlends : log.Lends prev sent) (hprev : log.AgreesUpTo other prev)
    (hbase : log.AgreesUpTo other other.snapshotIndex) :
    log.Coheres (other.splice kept fresh) := by
  have hagrees := h.agreesUpTo_splice hgapless hmeets hlends hprev hbase
  intro i a b ha hb hterm
  rcases le_or_gt i (prev + sent.length) with hle | hlt
  · exact hagrees.of_le hle
  -- only what was there before goes on after the entries
  have hlast := ((hgapless.splice hmeets.adjoins).range_of_get? hb).2.1
  have hlength := congrArg List.length hmeets.split
  rw [List.length_append] at hlength
  have hfresh : fresh = [] := by
    by_contra hne
    have hplace := hmeets.place hne
    rw [hgapless.lastIndex_splice hmeets.adjoins] at hlast
    omega
  subst hfresh
  exact h.recalls (recalls_splice_nil other kept) i a b ha hb hterm

end

/-! ## Sharing -/

/-- The other log has no gap, coheres with this one, and reaches to the index
without a difference. -/
structure Shares (log other : Log) (index : ℕ) : Prop where
  gapless : other.Gapless
  coheres : log.Coheres other
  agrees : log.AgreesUpTo other index
  le_last : index ≤ other.lastIndex

/-- The other log has what this one has, apart from what either has dropped. -/
structure Reproduces (log other : Log) : Prop where
  entries : ∀ i ≤ log.lastIndex, log.snapshotIndex < i → other.snapshotIndex < i →
    other.get? i = log.get? i
  terms : ∀ i ≤ log.lastIndex, ∀ s t, log.termAt? i = some s →
    other.termAt? i = some t → s = t

theorem Shares.of_le (h : log.Shares other index) {bound : ℕ}
    (hle : bound ≤ index) : log.Shares other bound :=
  ⟨h.gapless, h.coheres, h.agrees.of_le hle, hle.trans h.le_last⟩

theorem Shares.reproduces (h : log.Shares other log.lastIndex)
    (hgapless : log.Gapless) : log.Reproduces other where
  entries i hi hlog hother := by
    obtain ⟨a, ha⟩ := hgapless.exists_get? hlog hi
    obtain ⟨b, hb⟩ := h.gapless.exists_get? hother (hi.trans h.le_last)
    rw [ha, hb, (h.agrees i hi).entry a b ha hb]
  terms i hi := (h.agrees i hi).term

/-- What the leader begins after is found there. -/
theorem Shares.matchesAt (h : log.Shares other index) (hle : prev ≤ index)
    (hterm : log.termAt? prev = some term) : other.matchesAt prev term = true := by
  rw [matchesAt_iff]
  rcases lt_or_ge prev other.snapshotIndex with hcovered | hboundary
  · exact Or.inl hcovered
  · right
    cases hother : other.termAt? prev with
    | none =>
        have hend := h.gapless.lastIndex_lt_of_termAt? hboundary hother
        have hlast := h.le_last
        omega
    | some found => rw [(h.agrees prev hle).term term found hterm hother]

/-- The logs agree as far as an index where they have one term. -/
theorem Shares.extend (h : log.Shares other index) {reach : ℕ}
    (hlt : other.snapshotIndex < reach) (hlog : log.termAt? reach = some term)
    (hother : other.termAt? reach = some term) :
    log.Shares other (max index reach) where
  gapless := h.gapless
  coheres := h.coheres
  agrees i hi := by
    rcases le_max_iff.mp hi with hindex | hreach
    · exact h.agrees i hindex
    · exact h.coheres.upTo_of_termAt? hlog hother i hreach
  le_last := max_le h.le_last (h.gapless.le_lastIndex_of_termAt? hlt hother)

theorem Shares.dropThrough (h : log.Shares other index) {boundary : ℕ}
    (hlt : other.snapshotIndex < boundary) (hle : boundary ≤ index)
    (hterm : other.termAt? boundary = some term) :
    log.Shares (other.dropThrough boundary term) index := by
  have hrecalls := recalls_dropThrough hlt.le hterm
  constructor
  · exact h.gapless.dropThrough hlt.le term
  · exact h.coheres.recalls hrecalls
  · exact h.agrees.recalls hrecalls
  · rw [h.gapless.lastIndex_dropThrough hlt.le (hle.trans h.le_last)]
    exact h.le_last

/-- A log that starts over at an index of the other one. -/
theorem shares_base (hpos : 0 < index) (hterm : log.termAt? index = some term) :
    log.Shares ⟨[], index, term⟩ index where
  gapless := gapless_base index term
  coheres := coheres_base log index term
  agrees i hi := by
    rcases hi.lt_or_eq with hlt | rfl
    · exact agreesAt_of_lt (Or.inr hlt)
    · apply agreesAt_of_le (Or.inr le_rfl)
      intro s t hs ht
      have hbase : termAt? ⟨[], i, term⟩ i = some term := by
        unfold termAt?
        rw [if_neg hpos.ne', if_pos rfl]
      rw [hterm] at hs
      rw [hbase] at ht
      exact (Option.some.inj hs).symm.trans (Option.some.inj ht)
  le_last := le_rfl

/-- The entries that the other log sends after an index that fits. -/
theorem Shares.splice (h : log.Shares other index)
    (hbase : other.snapshotIndex ≤ index) {sent early fresh : List Entry}
    (hmeets : other.Meets prev sent kept early fresh)
    (hlends : log.Lends prev sent) (hterm : log.termAt? prev = some term)
    (hfits : other.matchesAt prev term = true) :
    log.Shares (other.splice kept fresh) (max index (prev + sent.length)) := by
  have hbase := h.agrees.of_le hbase
  have hprev : log.AgreesUpTo other prev := by
    rcases matchesAt_iff.mp hfits with hcovered | hother
    · exact hbase.of_le hcovered.le
    · exact h.coheres.upTo_of_termAt? hterm hother
  have hkept := hmeets.le_kept hlends h.agrees h.le_last
  constructor
  · exact h.gapless.splice hmeets.adjoins
  · exact h.coheres.splice h.gapless hmeets hlends hprev hbase
  · intro i hi
    rcases le_max_iff.mp hi with hindex | hreach
    · exact h.agrees.splice h.gapless hmeets.adjoins.le_last hkept fresh i hindex
    · exact h.coheres.agreesUpTo_splice h.gapless hmeets hlends hprev hbase i
        hreach
  · apply max_le
    · rw [h.gapless.lastIndex_splice hmeets.adjoins]
      exact hkept.trans (Nat.le_add_right _ _)
    · exact hmeets.reach_le h.gapless hlends.numbered

end Log

end Consensus
