import Consensus.Proofs.LogView
import Consensus.Proofs.Recorder

/-!
# The commands among entries

A log that keeps everything determines which commands come after an index up to another
one.  They come in the order of their indices, and all indices are between the two.

A consumer that has recorded what comes up to the first index finds each of them new
when it is given them one by one, and has recorded what comes up to the second then.
-/

namespace Consensus

/-- A command as a consumer gets it: its index and its bytes. -/
def Entry.call? (entry : Entry) : Option (ℕ × Bytes) :=
  match entry.payload with
  | .command bytes => some (entry.index, bytes)
  | _ => none

theorem Entry.call?_eq_some {entry : Entry} {call : ℕ × Bytes}
    (h : entry.call? = some call) :
    call.1 = entry.index ∧ entry.payload = .command call.2 := by
  unfold call? at h
  split at h
  · next hpayload =>
    obtain rfl := Option.some.inj h
    exact ⟨rfl, hpayload⟩
  · exact absurd h (by simp)

/-- The commands after the first index up to the second. -/
def commandsBetween (all : List Entry) (start stop : ℕ) : List (ℕ × Bytes) :=
  ((all.take stop).drop start).filterMap Entry.call?

variable {all : List Entry} {start stop : ℕ} {entry : Entry}

@[simp] theorem commandsBetween_self (all : List Entry) (index : ℕ) :
    commandsBetween all index index = [] := by
  unfold commandsBetween
  rw [List.drop_eq_nil_of_le (List.length_take_le _ _)]
  rfl

/-- One more entry adds its command. -/
theorem commandsBetween_succ (hle : start ≤ stop) (hentry : all[stop]? = some entry) :
    commandsBetween all start (stop + 1) =
      commandsBetween all start stop ++ entry.call?.toList := by
  have hlt := (List.getElem?_eq_some_iff.mp hentry).1
  have htake : all.take (stop + 1) = all.take stop ++ [entry] := by
    rw [List.take_add_one, hentry]
    rfl
  have hlength : start ≤ (all.take stop).length := by
    rw [List.length_take]
    omega
  unfold commandsBetween
  rw [htake, List.drop_append_of_le_length hlength, List.filterMap_append]
  rfl

/-- The commands carry indices between the two. -/
theorem index_of_mem_commandsBetween (hall : Numbered all) {call : ℕ × Bytes}
    (hcall : call ∈ commandsBetween all start stop) :
    start < call.1 ∧ call.1 ≤ stop := by
  obtain ⟨entry, hentry, hsome⟩ := List.mem_filterMap.mp hcall
  obtain ⟨hindex, -⟩ := Entry.call?_eq_some hsome
  obtain ⟨k, hk⟩ := List.mem_iff_getElem?.mp hentry
  rw [List.getElem?_drop, List.getElem?_take] at hk
  split at hk
  · have hposition := hall (start + k) entry hk
    omega
  · exact absurd hk (by simp)

/-- Numbers rise along entries that follow one another. -/
theorem NumberedFrom.pairwise {base : ℕ} {entries : List Entry}
    (h : NumberedFrom base entries) :
    entries.Pairwise fun e e' => e.index < e'.index := by
  induction entries generalizing base with
  | nil => exact List.Pairwise.nil
  | cons entry entries ih =>
      refine List.Pairwise.cons (fun later hlater => ?_) (ih h.tail)
      have hhead := h.head
      have hbeyond := (h.tail.index_of_mem hlater).1
      omega

/-- The commands come in the order of their indices. -/
theorem pairwise_commandsBetween (hall : Numbered all) (start stop : ℕ) :
    (commandsBetween all start stop).Pairwise fun call call' => call.1 < call'.1 := by
  have hpart : NumberedFrom start ((all.take stop).drop start) :=
    (hall.of_isPrefix (List.take_prefix stop all)).drop start
  refine hpart.pairwise.filterMap Entry.call? fun e e' hlt call hcall call' hcall' => ?_
  rw [(Entry.call?_eq_some hcall).1, (Entry.call?_eq_some hcall').1]
  exact hlt

/-! ## Giving them to a consumer -/

theorem Record.add_of_call {record : Record} {call : ℕ × Bytes}
    (h : entry.call? = some call) :
    record.add entry = ⟨record.entries ++ [call], call.1⟩ := by
  obtain ⟨hindex, hpayload⟩ := Entry.call?_eq_some h
  unfold Record.add
  rw [hpayload]
  dsimp only
  rw [← hindex]

theorem Record.add_of_none {record : Record} (h : entry.call? = none) :
    record.add entry = record := by
  unfold Entry.call? at h
  unfold Record.add
  split
  · next hpayload =>
    rw [hpayload] at h
    exact absurd h (by simp)
  · rfl

namespace Recorder

/-- The consumer after it was given commands, one by one. -/
def takes (m : Recorder) (calls : List (ℕ × Bytes)) : Recorder :=
  calls.foldl (fun m call => m.apply call.1 call.2) m

/-- Each command is beyond all that is recorded when the consumer is given it. -/
def Fresh : Recorder → List (ℕ × Bytes) → Prop
  | _, [] => True
  | m, call :: calls =>
    m.record.lastApplied < call.1 ∧ (m.apply call.1 call.2).Fresh calls

variable {m : Recorder} {calls : List (ℕ × Bytes)} {call : ℕ × Bytes}

@[simp] theorem takes_nil (m : Recorder) : m.takes [] = m := rfl

theorem takes_append_single (m : Recorder) (calls : List (ℕ × Bytes))
    (call : ℕ × Bytes) :
    m.takes (calls ++ [call]) = (m.takes calls).apply call.1 call.2 := by
  unfold takes
  rw [List.foldl_append]
  rfl

theorem fresh_append_single :
    m.Fresh (calls ++ [call]) ↔
      m.Fresh calls ∧ (m.takes calls).record.lastApplied < call.1 := by
  induction calls generalizing m with
  | nil => exact ⟨fun h => ⟨trivial, h.1⟩, fun h => ⟨h.2, trivial⟩⟩
  | cons first calls ih =>
      change _ ∧ (m.apply first.1 first.2).Fresh (calls ++ [call]) ↔ (_ ∧ _) ∧ _
      rw [ih, and_assoc]
      rfl

theorem apply_durable (m : Recorder) (index : ℕ) (command : Bytes) :
    (m.apply index command).durable = m.durable := by
  unfold apply
  dsimp only
  split <;> rfl

theorem takes_durable (m : Recorder) (calls : List (ℕ × Bytes)) :
    (m.takes calls).durable = m.durable := by
  induction calls using List.reverseRecOn with
  | nil => rfl
  | append_singleton calls call ih => rw [takes_append_single, apply_durable, ih]

theorem restore_durable {m' : Recorder} {data : Bytes} (h : m.restore data = .ok m') :
    m'.durable = m.durable := by
  unfold restore at h
  split at h
  · rw [← Except.ok.inj h]
  · exact absurd h (by simp)

/-- A command that is new is recorded. -/
theorem apply_record_of_lt (h : m.record.lastApplied < call.1) :
    (m.apply call.1 call.2).record = ⟨m.record.entries ++ [call], call.1⟩ := by
  unfold apply
  dsimp only
  rw [if_neg h.not_ge]

/-- A consumer that has recorded what comes before an entry is given its command. -/
theorem record_takes_call? (hall : Numbered all) (hentry : all[stop]? = some entry)
    (hm : m.record = recordAfter (all.take stop)) :
    (m.takes entry.call?.toList).record = recordAfter (all.take (stop + 1)) ∧
      m.Fresh entry.call?.toList := by
  have htake : all.take (stop + 1) = all.take stop ++ [entry] := by
    rw [List.take_add_one, hentry]
    rfl
  rw [htake, recordAfter_append_single, ← hm]
  cases hcall : entry.call? with
  | none => exact ⟨(Record.add_of_none hcall).symm, trivial⟩
  | some call =>
      have hnumbered := hall.of_isPrefix (List.take_prefix stop all)
      have hlast : m.record.lastApplied ≤ stop := by
        rw [hm]
        exact (recordAfter_lastApplied_le hnumbered).trans (List.length_take_le _ _)
      have hindex : call.1 = stop + 1 := by
        rw [(Entry.call?_eq_some hcall).1, hall stop entry hentry]
      have hlt : m.record.lastApplied < call.1 := by omega
      rw [Record.add_of_call hcall]
      exact ⟨apply_record_of_lt hlt, hlt, trivial⟩

end Recorder

end Consensus
