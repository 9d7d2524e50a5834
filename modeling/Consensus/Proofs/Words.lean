import Consensus.Journal
import Consensus.Progress
import Consensus.Proofs.Ensures
import Consensus.Proofs.SoundLog
import Consensus.Proofs.Table

/-!
# Logs and journals on words

As long as no index reaches the last word, a log and its disk do on words what they do
when nothing bounds the indices.
-/

namespace Consensus

/-- A computation and the one that follows it end well if both do. -/
theorem bind_eq_ok_iff {ε σ α β : Type} {act : EStateM ε σ α} {f : α → EStateM ε σ β}
    {s s' : σ} {b : β} :
    (act >>= f) s = .ok b s' ↔ ∃ a m, act s = .ok a m ∧ f a m = .ok b s' := by
  rw [bind_apply]
  cases act s with
  | ok a m =>
    refine ⟨fun h => ⟨a, m, rfl, h⟩, ?_⟩
    rintro ⟨a, m, heq, h⟩
    obtain ⟨rfl, rfl⟩ := EStateM.Result.ok.inj heq
    exact h
  | error e m =>
    constructor
    · intro h
      cases h
    · rintro ⟨a, m, heq, -⟩
      cases heq

theorem onPart_eq_ok_iff {ε σ τ α : Type} {get : σ → τ} {set : τ → σ → σ}
    {act : EStateM ε τ α} {s s' : σ} {a : α} :
    onPart get set act s = .ok a s' ↔ ∃ t, act (get s) = .ok a t ∧ set t s = s' := by
  unfold onPart
  cases act (get s) with
  | ok a' t =>
    constructor
    · intro h
      cases h
      exact ⟨t, rfl, rfl⟩
    · rintro ⟨t, heq, rfl⟩
      cases heq
      rfl
  | error e t =>
    constructor
    · intro h
      cases h
    · rintro ⟨t, heq, -⟩
      cases heq

/-! ## Two computations that do the same -/

/-- From the state both computations do the same, and where they end well it is with
`Q`. -/
def Concur {ε σ α : Type} (act act' : EStateM ε σ α) (s : σ) (Q : α → σ → Prop) :
    Prop :=
  act s = act' s ∧ Ensures act' s Q fun _ => True

namespace Concur

variable {ε σ τ α β : Type} {s : σ} {act act' : EStateM ε σ α}
  {f f' : α → EStateM ε σ β} {Q Q' : α → σ → Prop} {R : β → σ → Prop}

theorem refl (h : Ensures act s Q fun _ => True) : Concur act act s Q := ⟨rfl, h⟩

theorem imp (h : Concur act act' s Q) (hq : ∀ a s', Q a s' → Q' a s') :
    Concur act act' s Q' :=
  ⟨h.1, h.2.imp hq⟩

theorem bind (h : Concur act act' s Q)
    (hrest : ∀ a s', Q a s' → Concur (f a) (f' a) s' R) :
    Concur (act >>= f) (act' >>= f') s R := by
  obtain ⟨hsame, hends⟩ := h
  refine ⟨?_, hends.andThen fun a s' hs' => (hrest a s' hs').2⟩
  rw [bind_apply, bind_apply, hsame]
  cases hrun : act' s with
  | ok a s' => exact (hrest a s' (hends.ok hrun)).1
  | error e s' => rfl

theorem ite {c : Prop} [Decidable c] {other other' : EStateM ε σ α}
    (hpos : c → Concur act act' s Q) (hneg : ¬ c → Concur other other' s Q) :
    Concur (if c then act else other) (if c then act' else other') s Q := by
  by_cases hc : c
  · rw [if_pos hc, if_pos hc]
    exact hpos hc
  · rw [if_neg hc, if_neg hc]
    exact hneg hc

theorem get_bind {f f' : σ → EStateM ε σ β} (h : Concur (f s) (f' s) s R) :
    Concur ((get : EStateM ε σ σ) >>= f) (get >>= f') s R :=
  h

theorem modify_bind {change change' : σ → σ} {f f' : PUnit → EStateM ε σ β}
    (hsame : change s = change' s) (h : Concur (f ⟨⟩) (f' ⟨⟩) (change' s) R) :
    Concur (modify change >>= f : EStateM ε σ β) (modify change' >>= f') s R := by
  refine ⟨?_, h.2⟩
  change f ⟨⟩ (change s) = f' ⟨⟩ (change' s)
  rw [hsame]
  exact h.1

theorem set_bind {s' : σ} {f f' : PUnit → EStateM ε σ β}
    (h : Concur (f ⟨⟩) (f' ⟨⟩) s' R) :
    Concur (set s' >>= f : EStateM ε σ β) (set s' >>= f') s R :=
  h

/-- Computations on a part of the state. -/
theorem onPart {get : σ → τ} {set : τ → σ → σ} {act act' : EStateM ε τ α}
    (h : Concur act act' (get s) fun a t => Q a (set t s)) :
    Concur (Consensus.onPart get set act) (Consensus.onPart get set act') s Q := by
  refine ⟨?_, Ensures.onPart h.2⟩
  unfold Consensus.onPart
  rw [h.1]

theorem forM {γ : Type} {items : List γ} {body body' : γ → EStateM ε σ PUnit}
    {I : σ → Prop} (hstart : I s)
    (hbody : ∀ item s, I s → Concur (body item) (body' item) s fun _ s' => I s') :
    Concur (items.forM body) (items.forM body') s fun _ s' => I s' := by
  induction items generalizing s with
  | nil => exact refl hstart
  | cons item items ih => exact bind (hbody item s hstart) fun _ s' hs' => ih hs'

end Concur

/-! ## Logs -/

/-- No index in the log reaches the bound. -/
structure Log.Below (bound : ℕ) (log : Log) : Prop where
  entries : ∀ entry ∈ log.entries, entry.index < bound
  boundary : log.snapshotIndex < bound

namespace Log

variable {log : Log} {bound : ℕ}

instance : Decidable (log.Below bound) :=
  decidable_of_iff ((∀ entry ∈ log.entries, entry.index < bound) ∧
      log.snapshotIndex < bound)
    ⟨fun h => ⟨h.1, h.2⟩, fun h => ⟨h.entries, h.boundary⟩⟩

theorem Below.lastIndex_lt (h : log.Below bound) : log.lastIndex < bound := by
  unfold lastIndex
  split
  · next last hlast => exact h.entries last (List.mem_of_getLast? hlast)
  · exact h.boundary

theorem Below.mono (h : log.Below bound) {bound' : ℕ} (hle : bound ≤ bound') :
    log.Below bound' :=
  ⟨fun entry hentry => (h.entries entry hentry).trans_le hle,
    h.boundary.trans_le hle⟩

theorem Below.of_subset (h : log.Below bound) {entries : List Entry}
    (hsubset : ∀ entry ∈ entries, entry ∈ log.entries) {index : ℕ}
    (hindex : index < bound) (term : ℕ) : Below bound ⟨entries, index, term⟩ :=
  ⟨fun entry hentry => h.entries entry (hsubset entry hentry), hindex⟩

theorem Below.append (h : log.Below bound) {entries : List Entry}
    (hentries : ∀ entry ∈ entries, entry.index < bound) :
    Below bound { log with entries := log.entries ++ entries } := by
  refine ⟨fun entry hentry => ?_, h.boundary⟩
  rcases List.mem_append.mp hentry with hold | hnew
  · exact h.entries entry hold
  · exact hentries entry hnew

theorem Below.takeBefore (h : log.Below bound) (index : ℕ) :
    (log.takeBefore index).Below bound :=
  h.of_subset (fun _ hentry => List.mem_of_mem_take hentry) h.boundary _

theorem Below.dropThrough (h : log.Below bound) {index : ℕ} (hindex : index < bound)
    (term : ℕ) : (log.dropThrough index term).Below bound :=
  h.of_subset (fun _ hentry => List.mem_of_mem_drop hentry) hindex _

theorem firstIndex_words (h : log.snapshotIndex + 1 < wordBound) :
    @firstIndex .words log = log.firstIndex :=
  Counting.words_plus h

theorem entriesFrom_words (h : log.snapshotIndex + 1 < wordBound) {start : ℕ}
    (hstart : start < wordBound) (count : ℕ) :
    @entriesFrom .words log start count = log.entriesFrom start count := by
  unfold entriesFrom
  rw [firstIndex_words h, firstIndex_eq]
  dsimp only
  have hmax : max start (log.snapshotIndex + 1) < wordBound := max_lt hstart h
  rw [Counting.words_minus (by omega) hmax, Counting.words_minus (by omega) (by omega)]
  rfl

theorem conflictHint_words {index : ℕ} (hpos : 0 < index) (h : index < wordBound) :
    @conflictHint .words log index = log.conflictHint index := by
  unfold conflictHint
  rw [Counting.words_minus hpos h]
  rfl

/-- While the entries are words and not the last one, the next one is expected after
each. -/
theorem firstFlaw?_words {entries : List Entry} {expected least : ℕ}
    (h : ∀ entry ∈ entries, entry.index + 1 < wordBound) :
    @firstFlaw? .words expected least entries = firstFlaw? expected least entries := by
  induction entries generalizing expected least with
  | nil => rfl
  | cons entry rest ih =>
      have hrest := fun e he => h e (List.mem_cons_of_mem entry he)
      unfold firstFlaw?
      by_cases hindex : entry.index = expected
      · subst hindex
        rw [Counting.words_plus (h entry List.mem_cons_self), ih hrest]
        rfl
      · rw [if_pos hindex, if_pos hindex]

theorem merge_fresh_subset (log : Log) (sent : List Entry) :
    ∀ entry ∈ (log.merge sent).fresh, entry ∈ sent := by
  induction sent with
  | nil => exact fun entry hentry => absurd hentry List.not_mem_nil
  | cons first rest ih =>
      have hlater := fun entry hentry => List.mem_cons_of_mem first (ih entry hentry)
      unfold merge
      split
      · exact hlater
      split
      · exact fun entry hentry => hentry
      split
      · exact hlater
      · exact fun entry hentry => hentry

end Log

/-! ## What is known of a peer -/

namespace Progress

variable {p : Progress} {index : ℕ}

theorem recordSuccess_words (hp : p.matchIndex + 1 < wordBound)
    (hindex : index + 1 < wordBound) :
    @recordSuccess .words p index = p.recordSuccess index := by
  unfold recordSuccess
  dsimp only
  rw [Counting.words_plus (by omega)]
  rfl

theorem recordMismatch_words (hp : p.matchIndex + 1 < wordBound)
    (hindex : index + 1 < wordBound) :
    @recordMismatch .words p index = p.recordMismatch index := by
  unfold recordMismatch
  rw [Counting.words_plus hindex, Counting.words_plus hp]
  rfl

end Progress

/-! ## Journals -/

namespace Journal

variable {σ : Type} {j : Journal σ} {bound : ℕ}

theorem below_onDisk {act : EStateM Error σ Unit} (h : j.log.Below bound) :
    Ensures (onDisk act) j (fun _ j' => j'.log.Below bound) fun _ => True :=
  Ensures.onPart (Ensures.of_runs (fun _ _ _ => h) fun _ _ _ => trivial)

variable [Storage σ]

theorem concur_append (h : j.log.Below bound) (hnext : j.log.lastIndex + 1 < bound)
    (hbound : bound ≤ wordBound) (term : ℕ) (payload : Payload) :
    Concur (@append σ _ .words term payload) (append term payload) j
      fun _ j' => j'.log.Below bound := by
  unfold append
  refine Concur.get_bind ?_
  dsimp only
  rw [Counting.words_plus (hnext.trans_le hbound)]
  refine Concur.refl ?_
  refine (below_onDisk h).andThen fun _ j' hj' => hj'.append fun entry hentry => ?_
  rw [List.mem_singleton.mp hentry]
  exact hnext

/-- Cutting a log adds nothing to it. -/
theorem below_truncateFrom (h : j.log.Below bound) (index : ℕ) :
    Ensures (truncateFrom index) j (fun _ j' => j'.log.Below bound) fun _ => True := by
  unfold truncateFrom
  rw [Ensures.get_bind_iff]
  refine Ensures.ite (fun _ => h) fun _ => ?_
  exact (below_onDisk h).andThen fun _ j' hj' => hj'.takeBefore index

theorem below_compactTo (h : j.log.Below bound) {index : ℕ} (hindex : index < bound)
    (term : ℕ) :
    Ensures (compactTo index term) j (fun _ j' => j'.log.Below bound) fun _ => True := by
  unfold compactTo
  rw [Ensures.get_bind_iff]
  refine Ensures.ite (fun _ => h) fun _ => ?_
  exact (below_onDisk h).andThen fun _ j' hj' => hj'.dropThrough hindex term

theorem concur_appendFromLeader (h : j.log.Below bound) {prevIndex : ℕ}
    {sent : List Entry} (hsent : ∀ entry ∈ sent, entry.index < bound)
    (hreach : prevIndex + sent.length < wordBound) :
    Concur (@appendFromLeader σ _ .words prevIndex sent)
      (appendFromLeader prevIndex sent) j
      fun reach j' => reach = prevIndex + sent.length ∧ j'.log.Below bound := by
  unfold appendFromLeader
  rw [Counting.words_plus hreach]
  refine Concur.refl ?_
  rw [Ensures.get_bind_iff]
  have hfresh := fun entry hentry =>
    hsent entry (j.log.merge_fresh_subset sent entry hentry)
  have hrest : ∀ j' : Journal σ, j'.log.Below bound →
      Ensures (if (j.log.merge sent).fresh ≠ [] then do
          onDisk (Storage.append (j.log.merge sent).fresh)
          modifyLog fun log =>
            { log with entries := log.entries ++ (j.log.merge sent).fresh }
          pure (prevIndex + sent.length)
        else pure (prevIndex + sent.length) : Act σ ℕ) j'
      (fun reach j'' => reach = prevIndex + sent.length ∧ j''.log.Below bound)
      fun _ => True := by
    intro j' hj'
    refine Ensures.ite (fun _ => ?_) fun _ => ⟨rfl, hj'⟩
    exact (below_onDisk hj').andThen fun _ j'' hj'' => ⟨rfl, hj''.append hfresh⟩
  dsimp only
  cases (j.log.merge sent).cut with
  | none => exact hrest j h
  | some index => exact (below_truncateFrom h index).andThen fun _ => hrest

theorem concur_resetTo (h : j.log.Below bound) (hbound : bound < wordBound) {index : ℕ}
    (hindex : index < bound) (term : ℕ) :
    Concur (@resetTo σ _ .words index term) (resetTo index term) j
      fun _ j' => j'.log.Below bound := by
  have hboundary := h.boundary
  unfold resetTo
  refine Concur.get_bind ?_
  dsimp only
  rw [Log.firstIndex_words (by omega)]
  refine Concur.refl ?_
  have hrest : ∀ j' : Journal σ, Ensures (onDisk (Storage.compactTo index) >>= fun _ =>
      modifyLog fun _ => ⟨[], index, term⟩ : Act σ Unit) j'
      (fun _ j'' => j''.log.Below bound) fun _ => True := by
    intro j'
    refine Ensures.andThen Ensures.anything fun _ j'' _ => ?_
    exact ⟨fun entry hentry => absurd hentry List.not_mem_nil, hindex⟩
  refine Ensures.ite (fun _ => ?_) fun _ => hrest j
  exact Ensures.andThen Ensures.anything fun _ j' _ => hrest j'

end Journal

/-! ## Opening a journal -/

namespace Log

variable {σ : Type} [Storage σ] {log : Log} {disk disk' : σ} {index term : ℕ}

/-- Make a log of the entries that the snapshot does not cover, unless there is a flaw. -/
def checked [Counting] (index term : ℕ) (entries : List Entry) : EStateM Error σ Log :=
  match firstFlaw? (Counting.plus index 1) term entries with
  | some flaw => throw (.corrupted flaw)
  | none => pure ⟨entries, index, term⟩

theorem load_eq_checked [Counting] (index term : ℕ) : (load index term : EStateM Error σ Log) =
    Storage.inspect Storage.loadEntries >>= fun stored =>
      let covered := stored.takeWhile fun e => decide (e.index ≤ index)
      (if covered ≠ [] then Storage.compactTo index else pure ()) >>= fun _ =>
        checked index term (stored.drop covered.length) := by
  funext disk
  unfold load
  change EStateM.bind _ _ disk = EStateM.bind _ _ disk
  unfold EStateM.bind
  cases Storage.inspect Storage.loadEntries disk with
  | error e disk' => rfl
  | ok stored disk' =>
    dsimp only
    split
    · rfl
    · rfl

omit [Storage σ] in
theorem checked_eq_ok_iff [Counting] {entries : List Entry} :
    checked index term entries disk = .ok log disk' ↔
      firstFlaw? (Counting.plus index 1) term entries = none ∧
        log = ⟨entries, index, term⟩ ∧ disk' = disk := by
  unfold checked
  cases firstFlaw? (Counting.plus index 1) term entries with
  | some flaw => exact iff_of_false (fun h => by cases h) (by simp)
  | none =>
    constructor
    · intro h
      cases h
      exact ⟨rfl, rfl, rfl⟩
    · rintro ⟨-, rfl, rfl⟩
      rfl

omit [Storage σ] in
theorem checked_words_iff (h : log.Below (wordBound - 1)) {entries : List Entry} :
    @checked σ .words index term entries disk = .ok log disk' ↔
      checked index term entries disk = .ok log disk' := by
  have hsame : log = ⟨entries, index, term⟩ →
      @firstFlaw? .words (Counting.words.plus index 1) term entries =
        firstFlaw? (index + 1) term entries := by
    rintro rfl
    have hboundary : index < wordBound - 1 := h.boundary
    rw [Counting.words_plus (by omega)]
    exact firstFlaw?_words fun entry hentry => Nat.add_lt_of_lt_sub (h.entries entry hentry)
  have hwords := @checked_eq_ok_iff σ log disk disk' index term .words entries
  refine hwords.trans (Iff.trans ?_ checked_eq_ok_iff.symm)
  exact and_congr_left fun hlog => by rw [hsame hlog.1, Counting.plus_eq]

/-- A log in which no index is the last word is read off a disk on words as well. -/
theorem load_words_iff (h : log.Below (wordBound - 1)) :
    @load σ .words _ index term disk = .ok log disk' ↔
      load index term disk = .ok log disk' := by
  rw [@load_eq_checked σ _ .words, load_eq_checked]
  change EStateM.bind _ _ disk = _ ↔ EStateM.bind _ _ disk = _
  unfold EStateM.bind
  cases Storage.inspect Storage.loadEntries disk with
  | error e disk' => rfl
  | ok stored disk' =>
    change EStateM.bind _ _ _ = _ ↔ EStateM.bind _ _ _ = _
    unfold EStateM.bind
    split
    · exact checked_words_iff h
    · rfl

end Log

end Consensus
