import Consensus.Proofs.Retention
import Consensus.Proofs.Words

/-!
# The log on its disk through all changes

A journal is opened on a disk and then changed, again and again.  Each change may be
any that makes sense for the log as it is then: new entries come with terms that are
not behind, and the boundary of a snapshot within the log has the term that the log
has there.  Nothing is asked of the place of a cut, or of how far a compaction
reaches.

Then the entries on the disk are those in memory, they follow the boundary without a
gap and with terms that never fall, and whoever opens the journal again finds the same
log.  A journal that counts in words does the same while no index reaches the last word;
after the last word it goes on with index 0.
-/

namespace Consensus

namespace Log

variable {log : Log} {prev : ℕ} {sent : List Entry}

/-! ## What may be put at the end -/

theorem lastTerm_eq (log : Log) :
    log.lastTerm = endTerm log.snapshotTerm log.entries := by
  unfold lastTerm
  rcases List.eq_nil_or_concat log.entries with hnil | ⟨firsts, last, hlast⟩
  · rw [hnil]
    rfl
  · rw [hlast, List.concat_eq_append, endTerm_concat, List.getLast?_concat]

theorem Sound.termAt?_lastIndex (h : log.Sound) :
    log.termAt? log.lastIndex = some log.lastTerm := by
  rw [h.termAt?_eq h.boundary_le_last le_rfl, lastTerm_eq, h.lastIndex_eq,
    Nat.add_sub_cancel_left, List.take_length]

/-- A new entry whose term is not behind the last one. -/
theorem Sound.follows_last (h : log.Sound) {entry : Entry}
    (hindex : entry.index = log.lastIndex + 1) (hterm : log.lastTerm ≤ entry.term) :
    log.Follows log.lastIndex [entry] := by
  refine ⟨h.gapless.adjoins_single hindex, fun term hlast => ?_⟩
  obtain rfl := Option.some.inj (h.termAt?_lastIndex.symm.trans hlast)
  exact ⟨hterm, trivial⟩

/-- The entries that the snapshot does not cover. -/
def uncovered (log : Log) (sent : List Entry) : List Entry :=
  sent.filter fun e => decide (log.snapshotIndex < e.index)

/-- What the snapshot covers makes no difference to how entries join the log. -/
theorem merge_uncovered (log : Log) (hnumbered : NumberedFrom prev sent) :
    log.merge (log.uncovered sent) = log.merge sent := by
  unfold uncovered
  induction sent generalizing prev with
  | nil => rfl
  | cons entry rest ih =>
      by_cases hlt : log.snapshotIndex < entry.index
      · have hall : ∀ e ∈ entry :: rest, decide (log.snapshotIndex < e.index) = true := by
          intro e he
          have hbeyond := (hnumbered.index_of_mem he).1
          have hhead := hnumbered.head
          exact decide_eq_true (by omega)
        rw [List.filter_eq_self.mpr hall]
      · rw [List.filter_cons_of_neg (by simpa using hlt), merge_cons,
          if_pos (not_lt.mp hlt)]
        exact ih hnumbered.tail

/-- Entries that a leader sends after an index within the log, with terms that do not
fall once they are beyond the snapshot, take a place in the log. -/
theorem Sound.exists_follows (h : log.Sound) (hprev : prev ≤ log.lastIndex)
    (hnumbered : NumberedFrom prev sent)
    (hrising : ∀ term, log.termAt? (max prev log.snapshotIndex) = some term →
      Rising term (log.uncovered sent)) :
    ∃ kept fresh, log.Follows kept fresh ∧ (∀ entry ∈ fresh, entry ∈ sent) ∧
      (log.merge sent = ⟨none, fresh⟩ ∧ kept = log.lastIndex ∨
        log.merge sent = ⟨some (kept + 1), fresh⟩ ∧ kept < log.lastIndex) := by
  let start := max prev log.snapshotIndex
  have hlast : start ≤ log.lastIndex := max_le hprev h.boundary_le_last
  have hterm := h.termAt?_eq (le_max_right prev log.snapshotIndex) hlast
  have huncovered : NumberedFrom start (log.uncovered sent) := by
    intro k entry hk
    unfold uncovered at hk
    rw [hnumbered.filter_lt_index, List.getElem?_drop] at hk
    have hindex := hnumbered _ entry hk
    have hlength := (List.getElem?_eq_some_iff.mp hk).1
    omega
  obtain ⟨kept, early, fresh, -, hjoins⟩ := h.exists_joins le_rfl huncovered
    (hrising _ hterm) (matchesAt_iff.mpr (Or.inr hterm)) (by
      intro entry hentry hle
      have hlt := of_decide_eq_true (List.mem_filter.mp hentry).2
      exact absurd hle hlt.not_ge)
  refine ⟨kept, fresh, hjoins.follows, fun entry hentry => ?_, ?_⟩
  · have hin : entry ∈ log.uncovered sent :=
      hjoins.split ▸ List.mem_append_right early hentry
    exact (List.mem_filter.mp hin).1
  · rw [← merge_uncovered log hnumbered]
    exact hjoins.merge.imp_right fun ⟨hcut, _, hlt⟩ => ⟨hcut, hlt⟩

/-- A compaction beyond the end leaves the boundary alone. -/
theorem Sound.dropThrough_of_any (h : log.Sound) {index term : ℕ}
    (hlt : log.snapshotIndex < index)
    (hterm : ∀ own, log.termAt? index = some own → term = own) :
    (log.dropThrough index term).Sound := by
  rcases le_or_gt index log.lastIndex with hle | hbeyond
  · have hown := h.termAt?_eq hlt.le hle
    exact h.dropThrough hlt.le hle (hterm _ hown ▸ hown)
  · have hlength := h.lastIndex_eq
    have hnil : log.entries.drop (index - log.snapshotIndex) = [] :=
      List.drop_eq_nil_of_le (by omega)
    unfold Log.dropThrough
    rw [hnil]
    exact sound_base (Nat.zero_lt_of_lt hlt) term

end Log

namespace Journal

variable {σ : Type} [Storage σ] {Holds : σ → Stored → Prop}
  {Writable : ℕ → Prop} {fails : Prop} {j j' : Journal σ}

/-! ## Changes -/

/-- What can be done to the log of a journal. -/
inductive Change where
  | append (term : ℕ) (payload : Payload)
  | appendFromLeader (prev : ℕ) (sent : List Entry)
  | truncateFrom (index : ℕ)
  | compactTo (index term : ℕ)
  | resetTo (index term : ℕ)

namespace Change

/-- Make the change. -/
def run [Counting] : Change → Act σ Unit
  | append term payload => Journal.append term payload >>= fun _ => pure ()
  | appendFromLeader prev sent =>
      Journal.appendFromLeader prev sent >>= fun _ => pure ()
  | truncateFrom index => Journal.truncateFrom index
  | compactTo index term => Journal.compactTo index term
  | resetTo index term => Journal.resetTo index term

/-- The change makes sense for the log. -/
def Permitted (log : Log) : Change → Prop
  | append term _ => log.lastTerm ≤ term
  | appendFromLeader prev sent =>
      prev ≤ log.lastIndex ∧ NumberedFrom prev sent ∧
        ∀ term, log.termAt? (max prev log.snapshotIndex) = some term →
          Rising term (log.uncovered sent)
  | truncateFrom _ => True
  | compactTo index term => ∀ own, log.termAt? index = some own → term = own
  | resetTo index term => index = 0 → term = 0

/-- The entries that the change may add to the log. -/
def brought (log : Log) : Change → List Entry
  | append term payload => [⟨term, log.lastIndex + 1, payload⟩]
  | appendFromLeader _ sent => sent
  | _ => []

end Change

/-- The journal was opened on a disk of the kind and then changed, each time with
success.  Before the first entry of all there is no term but zero. -/
inductive Opened [Counting] (Holds : σ → Stored → Prop) (Writable : ℕ → Prop) :
    Journal σ → Prop
  | opened {index term : ℕ} {log : Log} {disk disk' : σ} {s : Stored} :
      Holds disk s → (index = 0 → term = 0) →
      Log.load index term disk = .ok log disk' → Opened Holds Writable ⟨log, disk'⟩
  | changed {j j' : Journal σ} (change : Change) :
      Opened Holds Writable j → change.Permitted j.log →
      (∀ entry ∈ change.brought j.log, entry.Fits Writable) →
      change.run j = .ok () j' → Opened Holds Writable j'

/-- Memory and disk agree on a log without flaws. -/
structure InStep (Holds : σ → Stored → Prop) (j : Journal σ) : Prop where
  sound : j.log.Sound
  keeps : ∃ s, j.Keeps Holds s

omit [Storage σ] in
theorem InStep.of_log {log : Log} (hsound : log.Sound) {s : Stored}
    (h : j.log = log ∧ j.Keeps Holds s) : j.InStep Holds := by
  obtain ⟨rfl, hkeeps⟩ := h
  exact ⟨hsound, s, hkeeps⟩

/-! ## Opening -/

/-- What the snapshot covers is dropped from the disk, and the rest is the log. -/
theorem ensures_load (hretains : Storage.Retains Holds Writable fails)
    {index term : ℕ} (horigin : index = 0 → term = 0) {disk : σ} {s : Stored}
    (h : Holds disk s) :
    Ensures (Log.load index term) disk
      (fun log disk' => InStep Holds ⟨log, disk'⟩) fun _ => True := by
  let covered := s.entries.takeWhile fun e => decide (e.index ≤ index)
  let rest := s.entries.drop covered.length
  have hload : Storage.inspect Storage.loadEntries disk = .ok s.entries disk := by
    unfold Storage.inspect
    rw [hretains.loadEntries disk s h]
  have hsound : Log.firstFlaw? (index + 1) term rest = none →
      Log.Sound ⟨rest, index, term⟩ := by
    intro hclean
    obtain ⟨hnumbered, hrising⟩ := firstFlaw?_eq_none_iff.mp hclean
    exact ⟨hnumbered, hrising, horigin⟩
  unfold Log.load
  refine Ensures.bind_of_ok hload (Ensures.ite (fun _ => ?_) fun hnone => ?_)
  · refine ((hretains.compactTo index disk s h).mono (fun _ _ hdisk => hdisk)
      fun _ _ => trivial).andThen fun _ disk' hdisk => ?_
    dsimp only
    split
    · trivial
    · next hclean =>
      have hnumbered : NumberedFrom index rest := (hsound hclean).numbered
      have hdrop : s.drop index = { s with entries := rest } := by
        unfold Stored.drop
        rw [hnumbered.filter_eq_drop]
      refine ⟨hsound hclean, s, ?_⟩
      change Holds disk' { s with entries := rest }
      rw [← hdrop]
      exact hdisk
  · dsimp only
    split
    · trivial
    · next hclean =>
      refine ⟨hsound hclean, s, ?_⟩
      have hrest : s.entries.drop covered.length = s.entries := by
        rw [show covered = [] from not_not.mp hnone, List.length_nil, List.drop_zero]
      change Holds disk { s with entries := s.entries.drop covered.length }
      rw [hrest]
      exact h

/-! ## Each change keeps memory and disk in step -/

section

variable (hretains : Storage.Retains Holds Writable fails)
include hretains

theorem InStep.append (h : j.InStep Holds) {term : ℕ} {payload : Payload}
    (hterm : j.log.lastTerm ≤ term)
    (hfits : Entry.Fits Writable ⟨term, j.log.lastIndex + 1, payload⟩) :
    Ensures (Journal.append term payload) j (fun _ j' => j'.InStep Holds)
      fun _ => fails := by
  obtain ⟨hsound, s, hkeeps⟩ := h
  refine (hkeeps.append hretains hfits).imp ?_
  rintro index j' ⟨rfl, hkept⟩
  refine .of_log ?_ hkept
  rw [hsound.gapless.push_eq]
  exact hsound.splice (hsound.follows_last rfl hterm)

theorem InStep.appendFromLeader (h : j.InStep Holds) {prev : ℕ} {sent : List Entry}
    (hpermitted : Change.Permitted j.log (.appendFromLeader prev sent))
    (hfits : ∀ entry ∈ sent, entry.Fits Writable) :
    Ensures (Journal.appendFromLeader prev sent) j (fun _ j' => j'.InStep Holds)
      fun _ => fails := by
  obtain ⟨hsound, s, hkeeps⟩ := h
  obtain ⟨hprev, hnumbered, hrising⟩ := hpermitted
  obtain ⟨kept, fresh, hfollows, hsubset, hmerge⟩ :=
    hsound.exists_follows hprev hnumbered hrising
  refine (hkeeps.appendFromLeader hretains hsound.gapless hfollows.toAdjoins hmerge
    fun entry hentry => hfits entry (hsubset entry hentry)).imp ?_
  rintro _ j' ⟨-, hkept⟩
  exact .of_log (hsound.splice hfollows) hkept

theorem InStep.truncateFrom (h : j.InStep Holds) (index : ℕ) :
    Ensures (Journal.truncateFrom index) j (fun _ j' => j'.InStep Holds)
      fun _ => fails := by
  obtain ⟨hsound, s, hkeeps⟩ := h
  by_cases hout : index ≤ j.log.snapshotIndex ∨ j.log.lastIndex < index
  · unfold Journal.truncateFrom
    rw [Ensures.get_bind_iff]
    apply Ensures.ite
    · intro _
      exact ⟨hsound, s, hkeeps⟩
    · intro hin
      exact absurd hout hin
  · obtain ⟨kept, rfl⟩ : ∃ kept, index = kept + 1 := ⟨index - 1, by omega⟩
    have hle : j.log.snapshotIndex ≤ kept := by omega
    have hlt : kept < j.log.lastIndex := by omega
    refine (hkeeps.truncateFrom hretains hsound.gapless hle hlt).imp ?_
    intro _ j' hkept
    exact .of_log (hsound.splice (Log.follows_nil hle hlt.le)) hkept

theorem InStep.compactTo (h : j.InStep Holds) {index term : ℕ}
    (hterm : ∀ own, j.log.termAt? index = some own → term = own) :
    Ensures (Journal.compactTo index term) j (fun _ j' => j'.InStep Holds)
      fun _ => fails := by
  obtain ⟨hsound, s, hkeeps⟩ := h
  rcases le_or_gt index j.log.snapshotIndex with hle | hlt
  · unfold Journal.compactTo
    rw [Ensures.get_bind_iff]
    apply Ensures.ite
    · intro _
      exact ⟨hsound, s, hkeeps⟩
    · intro hbeyond
      exact absurd hle hbeyond
  · refine (hkeeps.compactTo hretains hsound.gapless hlt term).imp ?_
    intro _ j' hkept
    exact .of_log (hsound.dropThrough_of_any hlt hterm) hkept

theorem InStep.resetTo (h : j.InStep Holds) {index term : ℕ}
    (horigin : index = 0 → term = 0) :
    Ensures (Journal.resetTo index term) j (fun _ j' => j'.InStep Holds)
      fun _ => fails := by
  obtain ⟨hsound, s, hkeeps⟩ := h
  refine (hkeeps.resetTo hretains hsound.gapless index term).imp ?_
  intro _ j' hkept
  have hbase : Log.Sound ⟨[], index, term⟩ := ⟨.nil index, trivial, horigin⟩
  exact .of_log hbase hkept

theorem InStep.changed (h : j.InStep Holds) {change : Change}
    (hpermitted : change.Permitted j.log)
    (hfits : ∀ entry ∈ change.brought j.log, entry.Fits Writable) :
    Ensures change.run j (fun _ j' => j'.InStep Holds) fun _ => fails := by
  cases change with
  | append term payload =>
      have hnew := hfits _ List.mem_cons_self
      exact (h.append hretains hpermitted hnew).andThen fun _ _ h' => h'
  | appendFromLeader prev sent =>
      exact (h.appendFromLeader hretains hpermitted hfits).andThen fun _ _ h' => h'
  | truncateFrom index => exact h.truncateFrom hretains index
  | compactTo index term => exact h.compactTo hretains hpermitted
  | resetTo index term => exact h.resetTo hretains hpermitted

/-- Through all changes memory and disk stay in step. -/
theorem Opened.inStep (h : Opened Holds Writable j) : j.InStep Holds := by
  induction h with
  | opened hdisk horigin hload =>
      exact (ensures_load hretains horigin hdisk).ok hload
  | changed change _ hpermitted hfits hrun ih =>
      exact (ih.changed hretains hpermitted hfits).ok hrun

/-- Nothing is lost or changed by opening the journal again. -/
theorem InStep.load_eq (h : j.InStep Holds) :
    Log.load j.log.snapshotIndex j.log.snapshotTerm j.disk = .ok j.log j.disk := by
  obtain ⟨hsound, s, hkeeps⟩ := h
  have hload : Storage.inspect Storage.loadEntries j.disk =
      .ok j.log.entries j.disk := by
    unfold Storage.inspect
    rw [hretains.loadEntries j.disk _ hkeeps]
  have hcovered : j.log.entries.takeWhile
      (fun e => decide (e.index ≤ j.log.snapshotIndex)) = [] := by
    rw [hsound.numbered.takeWhile_index_le, Nat.sub_self, List.take_zero]
  have hclean := firstFlaw?_eq_none_iff.mpr ⟨hsound.numbered, hsound.rising⟩
  change EStateM.bind _ _ j.disk = _
  unfold EStateM.bind
  rw [hload]
  simp only [hcovered, hclean, ne_eq, not_true_eq_false, if_false, List.length_nil,
    List.drop_zero, Counting.plus_eq]
  rfl

end

/-! ## Counting in words -/

/-- No index that the change brings reaches the bound. -/
def Change.Below (bound : ℕ) (log : Log) : Change → Prop
  | append _ _ => log.lastIndex + 1 < bound
  | appendFromLeader _ sent => ∀ entry ∈ sent, entry.index < bound
  | truncateFrom _ => True
  | compactTo index _ => index < bound
  | resetTo index _ => index < bound

/-- Entries of which none reaches the bound do not reach it together. -/
theorem reach_lt_of_numbered {bound prev : ℕ} {sent : List Entry}
    (hnumbered : NumberedFrom prev sent) (hprev : prev < bound)
    (hsent : ∀ entry ∈ sent, entry.index < bound) : prev + sent.length < bound := by
  rcases List.eq_nil_or_concat sent with rfl | ⟨firsts, last, rfl⟩
  · exact hprev
  · have hlast := hnumbered firsts.length last (by simp)
    have hlt := hsent last (by simp)
    rw [List.concat_eq_append, List.length_append, List.length_singleton]
    omega

/-- On words a change below the last one does the same, and leaves the log below it. -/
theorem Change.concur_run {bound : ℕ} (h : j.log.Below bound) (hbound : bound < wordBound)
    {change : Change} (hpermitted : change.Permitted j.log)
    (hchange : change.Below bound j.log) :
    Concur (@run σ _ .words change) (run change) j fun _ j' => j'.log.Below bound := by
  cases change with
  | append term payload =>
      exact Concur.bind (concur_append h hchange hbound.le term payload) fun _ _ hj =>
        Concur.refl hj
  | appendFromLeader prev sent =>
      obtain ⟨hprev, hnumbered, -⟩ := hpermitted
      have hreach := reach_lt_of_numbered hnumbered (hprev.trans_lt h.lastIndex_lt) hchange
      exact Concur.bind (concur_appendFromLeader h hchange (hreach.trans hbound))
        fun _ _ hj => Concur.refl hj.2
  | truncateFrom index => exact Concur.refl (below_truncateFrom h index)
  | compactTo index term => exact Concur.refl (below_compactTo h hchange term)
  | resetTo index term => exact concur_resetTo h hbound hchange term

/-- The journal was opened on a disk of the kind and then changed, each time with
success.  It counts in words, and no index reached the last one. -/
inductive OpenedInWords (Holds : σ → Stored → Prop) (Writable : ℕ → Prop) :
    Journal σ → Prop
  | opened {index term : ℕ} {log : Log} {disk disk' : σ} {s : Stored} :
      Holds disk s → (index = 0 → term = 0) →
      @Log.load σ .words _ index term disk = .ok log disk' →
      log.Below (wordBound - 1) → OpenedInWords Holds Writable ⟨log, disk'⟩
  | changed {j j' : Journal σ} (change : Change) :
      OpenedInWords Holds Writable j → change.Permitted j.log →
      change.Below (wordBound - 1) j.log →
      (∀ entry ∈ change.brought j.log, entry.Fits Writable) →
      @Change.run σ _ .words change j = .ok () j' → OpenedInWords Holds Writable j'

/-- The journal could count without bound. -/
theorem OpenedInWords.opened_and_below (h : OpenedInWords Holds Writable j) :
    Opened Holds Writable j ∧ j.log.Below (wordBound - 1) := by
  induction h with
  | opened hdisk horigin hload hbelow =>
      exact ⟨.opened hdisk horigin ((Log.load_words_iff hbelow).mp hload), hbelow⟩
  | changed change hj hpermitted hchange hfits hrun ih =>
      obtain ⟨hopened, hbelow⟩ := ih
      obtain ⟨hsame, hends⟩ := Change.concur_run hbelow (by decide) hpermitted hchange
      have hrun := hsame.symm.trans hrun
      exact ⟨hopened.changed change hpermitted hfits hrun, hends.ok hrun⟩

/-! ## What holds throughout -/

/-- The disk has just what is in memory, and that is a log without flaws, in which
each entry is found under its own index. -/
structure WrittenThrough (j : Journal σ) : Prop where
  stored : Storage.loadEntries j.disk = .ok j.log.entries
  numbered : NumberedFrom j.log.snapshotIndex j.log.entries
  last : j.log.lastIndex = j.log.snapshotIndex + j.log.entries.length
  rising : Rising j.log.snapshotTerm j.log.entries
  found : ∀ index, j.log.snapshotIndex < index → index ≤ j.log.lastIndex →
    ∃ entry, j.log.get? index = some entry
  get?_iff : ∀ index entry, j.log.get? index = some entry ↔
    entry ∈ j.log.entries ∧ entry.index = index

theorem InStep.writtenThrough (hretains : Storage.Retains Holds Writable fails)
    (h : j.InStep Holds) : j.WrittenThrough := by
  obtain ⟨hsound, s, hkeeps⟩ := h
  constructor
  · exact hretains.loadEntries j.disk _ hkeeps
  · exact hsound.numbered
  · exact hsound.lastIndex_eq
  · exact hsound.rising
  · intro index hlt hle
    exact hsound.gapless.exists_get? hlt hle
  · intro index entry
    constructor
    · intro hget
      exact ⟨Log.mem_of_get? hget, (hsound.gapless.range_of_get? hget).2.2⟩
    · rintro ⟨hentry, rfl⟩
      exact hsound.gapless.get?_of_mem hentry

/-- A journal on a disk in memory, after two entries of its own, a compaction and an
entry of a leader. -/
def compacted : Journal Memory where
  log := ⟨[⟨1, 2, .command [7]⟩, ⟨2, 3, .noop⟩], 1, 1⟩
  disk := { entries := [⟨1, 2, .command [7]⟩, ⟨2, 3, .noop⟩] }

theorem openedInWords_compacted :
    OpenedInWords (fun disk s => Memory.stored disk = s) (fun _ => True) compacted := by
  have hfits : ∀ entry : Entry, entry.Fits fun _ => True :=
    Entry.fits_of_all fun _ => trivial
  have hempty : OpenedInWords (fun disk s => Memory.stored disk = s) (fun _ => True)
      ⟨⟨[], 0, 0⟩, ({} : Memory)⟩ :=
    have hload : @Log.load Memory .words _ 0 0 {} = .ok ⟨[], 0, 0⟩ {} := rfl
    .opened rfl (fun _ => rfl) hload (by decide)
  have hnext : ∀ k < 2, k + 1 < wordBound - 1 := by decide
  have hfirst := hempty.changed (.append 1 .noop) (Nat.zero_le 1) (hnext 0 (by decide))
    (fun entry _ => hfits entry) rfl
  have hsecond := hfirst.changed (.append 1 (.command [7])) le_rfl (hnext 1 (by decide))
    (fun entry _ => hfits entry) rfl
  have hcompact := hsecond.changed (.compactTo 1 1) (fun own hown => Option.some.inj hown)
    (hnext 0 (by decide)) (fun entry _ => hfits entry) rfl
  refine hcompact.changed (.appendFromLeader 2 [⟨2, 3, .noop⟩]) ⟨le_rfl, ?_, ?_⟩ ?_
    (fun entry _ => hfits entry) rfl
  · exact .cons rfl (.nil 3)
  · intro term hterm
    obtain rfl : 1 = term := Option.some.inj hterm
    exact ⟨Nat.le_succ 1, trivial⟩
  · intro entry hentry
    rw [List.mem_singleton.mp hentry]
    decide

end Journal

end Consensus
