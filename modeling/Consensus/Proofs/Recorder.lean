import Consensus.Proofs.Json.Record
import Consensus.Recorder
import Consensus.Storage
import Mathlib.Data.Nat.Notation
import Mathlib.Logic.Basic
import Mathlib.Order.Nat

/-!
# Snapshots of a consumer

A snapshot spells the record that it was taken from.  It can be read back
exactly if all its indices fit in 64 bits, and it is never read as another
record.  No command in it is beyond the last index that was recorded.
-/

namespace Consensus

namespace Record

/-- All indices fit in 64 bits. -/
def Fits (r : Record) : Prop :=
  (∀ item ∈ r.entries, item.1 < wordBound) ∧ r.lastApplied < wordBound

instance (r : Record) : Decidable r.Fits := instDecidableAnd

theorem plain_toJson (r : Record) : r.toJson.Plain := by
  refine Json.plain_ofRecord fun field hfield => ?_
  rw [List.mem_cons, List.mem_singleton] at hfield
  rcases hfield with rfl | rfl
  · refine Json.plain_ofList fun item _ => Json.plainItems_iff.mpr ?_
    intro part hpart
    rw [List.mem_cons, List.mem_singleton] at hpart
    rcases hpart with rfl | rfl
    · exact Json.plain_ofNat _
    · exact Json.plain_ofBytes _
  · exact Json.plain_ofNat _

theorem itemOfJson?_itemToJson (item : ℕ × Bytes) :
    itemOfJson? (itemToJson item) =
      if item.1 < wordBound then some item else none := by
  unfold itemOfJson? itemToJson Json.word?
  dsimp only
  rw [Json.nat?_ofNat, Json.bytes?_ofBytes]
  split <;> rfl

theorem list?_entries {items : List (ℕ × Bytes)}
    (h : ∀ item ∈ items, item.1 < wordBound) :
    Json.list? itemOfJson? (.ofList itemToJson items) = some items := by
  have hread : Json.list? itemOfJson? (.ofList itemToJson items) =
      some (items.map id) := by
    refine Json.list?_ofList fun item hitem => ?_
    rw [itemOfJson?_itemToJson, if_pos (h item hitem)]
    rfl
  rw [List.map_id] at hread
  exact hread

theorem list?_entries_eq_none {items : List (ℕ × Bytes)}
    (h : ¬ ∀ item ∈ items, item.1 < wordBound) :
    Json.list? itemOfJson? (.ofList itemToJson items) = none := by
  obtain ⟨item, hitem, hlarge⟩ := not_forall₂.mp h
  unfold Json.list? Json.ofList
  dsimp only
  rw [List.mapM_map]
  refine Json.mapM_eq_none ⟨item, hitem, ?_⟩
  exact (itemOfJson?_itemToJson item).trans (if_neg hlarge)

theorem ofJson?_toJson (r : Record) :
    ofJson? r.toJson = if r.Fits then some r else none := by
  have hfields : r.toJson.fields? ["entries", "last_applied"] =
      some [some (.ofList itemToJson r.entries), some (.ofNat r.lastApplied)] :=
    Json.fields?_ofRecord rfl (by decide)
  unfold ofJson?
  rw [hfields]
  change (Json.list? itemOfJson? (.ofList itemToJson r.entries)).bind
    (fun entries => (Json.nat? wordBound (.ofNat r.lastApplied)).bind
      fun last => some (Record.mk entries last)) = _
  rw [Json.nat?_ofNat]
  by_cases hentries : ∀ item ∈ r.entries, item.1 < wordBound
  · rw [list?_entries hentries, Option.bind_some]
    by_cases hlast : r.lastApplied < wordBound
    · rw [if_pos hlast, if_pos ⟨hentries, hlast⟩]
      rfl
    · rw [if_neg hlast, if_neg fun hfits => hlast hfits.2]
      rfl
  · have hnot : ¬ r.Fits := fun hfits => hentries hfits.1
    rw [list?_entries_eq_none hentries, if_neg hnot]
    rfl

/-- A snapshot gives back the record that it was taken from, unless an index
is out of bounds. -/
theorem decode?_encode (r : Record) :
    decode? r.encode = if r.Fits then some r else none := by
  unfold decode? encode
  rw [Json.read?_print r.plain_toJson]
  exact r.ofJson?_toJson

theorem eq_of_decode? {r r' : Record} (h : decode? r.encode = some r') :
    r' = r := by
  rw [decode?_encode] at h
  split at h
  · exact (Option.some.inj h).symm
  · exact absurd h (by simp)

/-- Nothing is recorded beyond the bound, and every command was the last one
once. -/
structure Below (r : Record) (bound : ℕ) : Prop where
  entries : ∀ item ∈ r.entries, item.1 ≤ r.lastApplied
  lastApplied : r.lastApplied ≤ bound

variable {r : Record} {bound : ℕ}

theorem below_empty (bound : ℕ) : Below {} bound :=
  ⟨fun _ hitem => absurd hitem List.not_mem_nil, Nat.zero_le _⟩

theorem Below.mono (h : r.Below bound) {bound' : ℕ} (hle : bound ≤ bound') :
    r.Below bound' :=
  ⟨h.entries, h.lastApplied.trans hle⟩

theorem Below.fits (h : r.Below bound) (hbound : bound < wordBound) : r.Fits :=
  ⟨fun item hitem => ((h.entries item hitem).trans h.lastApplied).trans_lt hbound,
    h.lastApplied.trans_lt hbound⟩

end Record

/-- The consumer is given the command at the next index. -/
theorem Recorder.below_apply {m : Recorder} {bound : ℕ}
    (h : m.record.Below bound) (bytes : Bytes) :
    (m.apply (bound + 1) bytes).record.Below (bound + 1) := by
  have hlast := h.lastApplied
  unfold Recorder.apply
  dsimp only
  rw [if_neg (by omega)]
  refine ⟨fun item hitem => ?_, le_rfl⟩
  rcases List.mem_append.mp hitem with hold | hnew
  · exact (h.entries item hold).trans (hlast.trans (Nat.le_succ _))
  · rw [List.mem_singleton.mp hnew]

/-- The data of the snapshot was written by a consumer that had got no further. -/
def Snapshot.Written (snapshot : Snapshot) : Prop :=
  ∃ r : Record, r.Below snapshot.index ∧ snapshot.data = r.encode

/-- A snapshot whose index fits in 64 bits gives back its record. -/
theorem Snapshot.Written.exists_restore {snapshot : Snapshot}
    (h : snapshot.Written) (hindex : snapshot.index < wordBound)
    (m : Recorder) : ∃ m', m.restore snapshot.data = .ok m' := by
  obtain ⟨r, hbelow, hdata⟩ := h
  refine ⟨{ m with record := r, restores := m.restores + 1 }, ?_⟩
  unfold Recorder.restore
  rw [hdata, Record.decode?_encode, if_pos (hbelow.fits hindex)]

/-- Whatever consumer is restored, it gets no further than the snapshot. -/
theorem Snapshot.Written.below_restore {snapshot : Snapshot}
    (h : snapshot.Written) {m m' : Recorder}
    (hrestored : m.restore snapshot.data = .ok m') :
    m'.record.Below snapshot.index := by
  obtain ⟨r, hbelow, hdata⟩ := h
  unfold Recorder.restore at hrestored
  rw [hdata] at hrestored
  cases hread : Record.decode? r.encode with
  | none =>
      rw [hread] at hrestored
      exact absurd hrestored (by simp)
  | some r' =>
      rw [hread] at hrestored
      obtain rfl := Except.ok.inj hrestored
      rw [Record.eq_of_decode? hread]
      exact hbelow

end Consensus
