import Consensus.Proofs.Commands
import Consensus.Proofs.Recorder

/-!
# A snapshot stands for the commands before it

A consumer that starts from a snapshot may be given commands again that were recorded
before the snapshot was taken, as its log may reach back behind the snapshot.  It skips
them, since their indices are not beyond the last one, and records the rest.  So
whatever it held before, and however much is repeated, it ends up with the record of a
consumer that was given all commands once.
-/

namespace Consensus

/-- Commands with their indices, as they are committed: from 1 or above the indices
rise, and all of them fit in 64 bits. -/
structure InCommitOrder (calls : List (ℕ × Bytes)) : Prop where
  rising : calls.Pairwise fun call call' => call.1 < call'.1
  positive : ∀ call ∈ calls, 0 < call.1
  isWord : ∀ call ∈ calls, call.1 < wordBound

namespace Record

/-- The record of the commands, up to the index of the last. -/
def ofCalls (calls : List (ℕ × Bytes)) : Record :=
  ⟨calls, (calls.getLast?.map Prod.fst).getD 0⟩

@[simp] theorem ofCalls_append_single (calls : List (ℕ × Bytes)) (call : ℕ × Bytes) :
    ofCalls (calls ++ [call]) = ⟨calls ++ [call], call.1⟩ := by
  unfold ofCalls
  rw [List.getLast?_append, List.getLast?_singleton]
  rfl

end Record

namespace InCommitOrder

variable {calls done new : List (ℕ × Bytes)} {call : ℕ × Bytes}

theorem of_isPrefix (h : InCommitOrder calls) (hle : done <+: calls) : InCommitOrder done where
  rising := h.rising.sublist hle.sublist
  positive call hcall := h.positive call (hle.subset hcall)
  isWord call hcall := h.isWord call (hle.subset hcall)

/-- No command is beyond the last. -/
theorem le_lastApplied (h : InCommitOrder calls) (hcall : call ∈ calls) :
    call.1 ≤ (Record.ofCalls calls).lastApplied := by
  induction calls using List.reverseRecOn with
  | nil => exact absurd hcall List.not_mem_nil
  | append_singleton calls last _ =>
      rw [Record.ofCalls_append_single]
      rcases List.mem_append.mp hcall with hbefore | hlast
      · exact ((List.pairwise_append.mp h.rising).2.2 call hbefore last
          List.mem_cons_self).le
      · rw [List.mem_singleton.mp hlast]

/-- The next command is beyond all before it. -/
theorem lastApplied_lt (h : InCommitOrder (calls ++ [call])) :
    (Record.ofCalls calls).lastApplied < call.1 := by
  have hcall : call ∈ calls ++ [call] := List.mem_append_right _ List.mem_cons_self
  cases calls using List.reverseRecOn with
  | nil => exact h.positive call hcall
  | append_singleton calls last =>
      rw [Record.ofCalls_append_single]
      exact (List.pairwise_append.mp h.rising).2.2 last
        (List.mem_append_right _ List.mem_cons_self) call List.mem_cons_self

theorem fits (h : InCommitOrder calls) : (Record.ofCalls calls).Fits := by
  refine ⟨h.isWord, ?_⟩
  cases calls using List.reverseRecOn with
  | nil => decide
  | append_singleton calls last =>
      rw [Record.ofCalls_append_single]
      exact h.isWord last (List.mem_append_right _ List.mem_cons_self)

end InCommitOrder

namespace Recorder

variable {m : Recorder} {calls done again new : List (ℕ × Bytes)} {call : ℕ × Bytes}

/-! ## Commands that come again, and new ones -/

theorem takes_append (m : Recorder) (xs ys : List (ℕ × Bytes)) :
    m.takes (xs ++ ys) = (m.takes xs).takes ys :=
  List.foldl_append

/-- A command that is not new is not recorded. -/
theorem apply_record_of_le (h : call.1 ≤ m.record.lastApplied) :
    (m.apply call.1 call.2).record = m.record := by
  unfold apply
  dsimp only
  rw [if_pos h]

/-- Commands that are recorded may come again, in any order and any number of times. -/
theorem record_takes_again (hordered : InCommitOrder done) (hm : m.record = .ofCalls done)
    (hagain : ∀ call ∈ again, call ∈ done) :
    (m.takes again).record = .ofCalls done := by
  induction again using List.reverseRecOn with
  | nil => exact hm
  | append_singleton again call ih =>
      have hbefore := ih fun c hc => hagain c (List.mem_append_left _ hc)
      have hle := hordered.le_lastApplied
        (hagain call (List.mem_append_right _ List.mem_cons_self))
      rw [takes_append_single, apply_record_of_le (hbefore ▸ hle), hbefore]

/-- Commands that follow those recorded are recorded. -/
theorem record_takes_new (hordered : InCommitOrder (done ++ new))
    (hm : m.record = .ofCalls done) :
    (m.takes new).record = .ofCalls (done ++ new) := by
  induction new using List.reverseRecOn with
  | nil => rw [List.append_nil, takes_nil, hm]
  | append_singleton new call ih =>
      rw [← List.append_assoc] at hordered ⊢
      have hbefore := ih (hordered.of_isPrefix (List.prefix_append _ _))
      have hlt := hordered.lastApplied_lt
      rw [takes_append_single, apply_record_of_lt (hbefore ▸ hlt), hbefore,
        Record.ofCalls_append_single]
      rfl

/-- A consumer that starts with nothing records all it is given. -/
theorem record_takes_of_empty (hordered : InCommitOrder calls) (hm : m.record = {}) :
    (m.takes calls).record = .ofCalls calls :=
  @record_takes_new m [] calls hordered hm

/-- However the feeding breaks off, what is recorded lies between what was recorded
before and everything. -/
theorem exists_record_takes {given : List (ℕ × Bytes)}
    (hordered : InCommitOrder (done ++ new)) (hm : m.record = .ofCalls done)
    (hagain : ∀ call ∈ again, call ∈ done) (hgiven : given <+: again ++ new) :
    ∃ shown, (m.takes given).record = .ofCalls shown ∧
      done <+: shown ∧ shown <+: done ++ new := by
  have hdone := hordered.of_isPrefix (List.prefix_append done new)
  rcases List.prefix_or_prefix_of_prefix hgiven (List.prefix_append again new) with
    hle | ⟨part, rfl⟩
  · refine ⟨done, record_takes_again hdone hm fun call hcall => ?_, List.prefix_rfl,
      List.prefix_append _ _⟩
    exact hagain call (hle.subset hcall)
  · have hpart := (List.prefix_append_right_inj again).mp hgiven
    have hshown := (List.prefix_append_right_inj done).mpr hpart
    refine ⟨done ++ part, ?_, List.prefix_append _ _, hshown⟩
    rw [takes_append]
    exact record_takes_new (hordered.of_isPrefix hshown)
      (record_takes_again hdone hm hagain)

/-! ## Starting from a snapshot -/

/-- Whatever a consumer holds, a snapshot replaces it by the record it was taken from. -/
theorem exists_restore_snapshot {source : Recorder} (hfits : source.record.Fits)
    (target : Recorder) :
    ∃ m, target.restore source.snapshot = .ok m ∧ m.record = source.record := by
  refine ⟨{ target with record := source.record, restores := target.restores + 1 }, ?_, rfl⟩
  unfold restore snapshot
  rw [Record.decode?_encode, if_pos hfits]

/-- A snapshot of the first commands, some of these once more from any point on, and
then the rest: this gives the record of a consumer that was given all commands once.
However the feeding breaks off, what is recorded is what was committed up to some point
that is not before the snapshot. -/
theorem replays_to_all {all first again rest : List (ℕ × Bytes)}
    (hordered : InCommitOrder all) (hsplit : all = first ++ rest)
    (hagain : again <:+ first) {source : Recorder} (hsource : source.record = {})
    (target : Recorder) :
    ∃ m, target.restore (source.takes first).snapshot = .ok m ∧
      (m.takes (again ++ rest)).record = .ofCalls all ∧
      (source.takes all).record = .ofCalls all ∧
      ∀ given, given <+: again ++ rest →
        ∃ shown, (m.takes given).record = .ofCalls shown ∧
          first <+: shown ∧ shown <+: all := by
  subst hsplit
  have hfirst := hordered.of_isPrefix (List.prefix_append first rest)
  have htaken := record_takes_of_empty hfirst hsource
  obtain ⟨m, hrestored, hm⟩ := exists_restore_snapshot (htaken ▸ hfirst.fits) target
  rw [htaken] at hm
  have hheld : ∀ call ∈ again, call ∈ first := fun call hcall => hagain.subset hcall
  refine ⟨m, hrestored, ?_, record_takes_of_empty hordered hsource,
    fun given hgiven => exists_record_takes hordered hm hheld hgiven⟩
  rw [takes_append]
  exact record_takes_new hordered (record_takes_again hfirst hm hheld)

/-- Three commands, of which a consumer with a record of its own has the first two from
a snapshot and is given the second once more. -/
theorem replays_to_all_three :
    ∃ m, Recorder.restore ⟨⟨[(7, [7])], 7⟩, 1, 0, true⟩
        (Recorder.takes {} [(1, [97]), (3, [98])]).snapshot = .ok m ∧
      (m.takes [(3, [98]), (4, [])]).record = ⟨[(1, [97]), (3, [98]), (4, [])], 4⟩ := by
  have hordered : InCommitOrder [(1, [97]), (3, [98]), (4, [])] :=
    ⟨by decide, by decide, by decide⟩
  have hagain : [(3, [98])] <:+ [(1, [97]), (3, ([98] : Bytes))] := ⟨[(1, [97])], rfl⟩
  have hsource : ({} : Recorder).record = {} := rfl
  obtain ⟨m, hrestored, hrecord, -⟩ :=
    replays_to_all hordered rfl hagain hsource ⟨⟨[(7, [7])], 7⟩, 1, 0, true⟩
  exact ⟨m, hrestored, hrecord⟩

end Recorder

end Consensus
