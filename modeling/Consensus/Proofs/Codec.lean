import Consensus.Codec.Stored
import Consensus.Proofs.Json.Legible
import Consensus.Proofs.Retention

/-!
# Stored values are read as they were written

Entries, term and vote, and snapshots are written as records of numbers, lists and a few
names.  Each is read back as it was if its numbers fit in 64 bits, and it is written in
printable characters, whatever bytes a command or the data of a snapshot has.
-/

namespace Consensus

open Json (Legible LegibleText Plain)

/-- A number that fits in 64 bits. -/
def IsWord (n : ℕ) : Prop := n < wordBound

instance (n : ℕ) : Decidable (IsWord n) := Nat.decLt n wordBound

theorem Json.word?_ofNat {n : ℕ} (h : IsWord n) : word? (ofNat n) = some n := by
  exact (nat?_ofNat wordBound n).trans (if_pos h)

/-! ## Members -/

namespace NodeSet

variable {members : NodeSet}

theorem ofList_toList (members : NodeSet) : ofList members.toList = members := by
  apply NodeSet.ext
  intro id
  rw [mem_ofList, mem_toList]

theorem plain_toJson (members : NodeSet) : members.toJson.Plain := by
  refine Json.plain_ofRecord fun field hfield => ?_
  rw [List.mem_singleton.mp hfield]
  exact Json.plain_ofList fun _ _ => Json.plain_ofNat _

theorem legible_toJson (members : NodeSet) : Legible members.toJson := by
  have hname : LegibleText "members" := by decide +kernel
  refine Json.legible_ofRecord fun field hfield => ?_
  rw [List.mem_singleton.mp hfield]
  exact ⟨hname, Json.legible_ofList fun _ _ => Json.legible_ofNat _⟩

theorem ofJson?_toJson (h : ∀ id ∈ members.toList, IsWord id) :
    ofJson? members.toJson = some members := by
  have hfields : members.toJson.fields? ["members"] =
      some [some (.ofList .ofNat members.toList)] :=
    Json.fields?_ofRecord rfl (by decide)
  have hids : Json.list? Json.word? (.ofList .ofNat members.toList) =
      some (members.toList.map id) :=
    Json.list?_ofList fun id hid => Json.word?_ofNat (h id hid)
  unfold ofJson?
  rw [hfields]
  change (Json.list? Json.word? (.ofList .ofNat members.toList)).map ofList = _
  rw [hids, List.map_id, Option.map_some, ofList_toList]

end NodeSet

/-! ## Entries -/

namespace Payload

theorem plain_toJson (payload : Payload) : payload.toJson.Plain := by
  cases payload with
  | noop => exact Json.plain_ofText _
  | command bytes => exact Json.plain_ofVariant (Json.plain_ofBytes bytes)
  | config members => exact Json.plain_ofVariant members.plain_toJson

theorem legible_toJson (payload : Payload) : Legible payload.toJson := by
  cases payload with
  | noop => exact Json.legible_ofText (by decide +kernel)
  | command bytes =>
      exact Json.legible_ofVariant (by decide +kernel) (Json.legible_ofBytes bytes)
  | config members =>
      exact Json.legible_ofVariant (by decide +kernel) members.legible_toJson

theorem ofJson?_toJson {payload : Payload} (h : ∀ members, payload = .config members →
    ∀ id ∈ members.toList, IsWord id) : ofJson? payload.toJson = some payload := by
  unfold ofJson?
  cases payload with
  | noop =>
      have hbare : (toJson .noop).variant? = some ("Noop", none) :=
        Json.variant?_ofText _
      rw [hbare]
      rfl
  | command bytes =>
      have hcommand : (toJson (.command bytes)).variant? =
          some ("Command", some (.ofBytes bytes)) := Json.variant?_ofVariant _ _
      rw [hcommand]
      change (Json.bytes? (.ofBytes bytes)).map _ = _
      rw [Json.bytes?_ofBytes]
      rfl
  | config members =>
      have hconfig : (toJson (.config members)).variant? =
          some ("Config", some members.toJson) := Json.variant?_ofVariant _ _
      rw [hconfig]
      change (NodeSet.ofJson? members.toJson).map _ = _
      rw [NodeSet.ofJson?_toJson (h members rfl)]
      rfl

end Payload

namespace Entry

theorem plain_toJson (entry : Entry) : entry.toJson.Plain := by
  refine Json.plain_ofRecord fun field hfield => ?_
  simp only [List.mem_cons, List.not_mem_nil, or_false] at hfield
  rcases hfield with rfl | rfl | rfl
  · exact Json.plain_ofNat _
  · exact Json.plain_ofNat _
  · exact entry.payload.plain_toJson

/-- The line of an entry is printable. -/
theorem isPrintable_encode (entry : Entry) : Utf8.IsPrintable entry.encode := by
  have hnames : LegibleText "term" ∧ LegibleText "index" ∧ LegibleText "payload" := by
    decide +kernel
  refine Json.legible_ofRecord fun field hfield => ?_
  simp only [List.mem_cons, List.not_mem_nil, or_false] at hfield
  rcases hfield with rfl | rfl | rfl
  · exact ⟨hnames.1, Json.legible_ofNat _⟩
  · exact ⟨hnames.2.1, Json.legible_ofNat _⟩
  · exact ⟨hnames.2.2, entry.payload.legible_toJson⟩

theorem ofJson?_toJson {entry : Entry} (h : entry.Fits IsWord) :
    ofJson? entry.toJson = some entry := by
  have hfields : entry.toJson.fields? ["term", "index", "payload"] =
      some [some (.ofNat entry.term), some (.ofNat entry.index),
        some entry.payload.toJson] :=
    Json.fields?_ofRecord rfl (by decide)
  unfold ofJson?
  rw [hfields]
  change (Json.word? (.ofNat entry.term)).bind (fun term =>
    (Json.word? (.ofNat entry.index)).bind fun index =>
      (Payload.ofJson? entry.payload.toJson).bind fun payload =>
        some (Entry.mk term index payload)) = _
  rw [Json.word?_ofNat h.term, Option.bind_some, Json.word?_ofNat h.index,
    Option.bind_some, Payload.ofJson?_toJson h.members]
  rfl

theorem decode?_encode {entry : Entry} (h : entry.Fits IsWord) :
    decode? entry.encode = some entry := by
  unfold decode? encode
  rw [Json.read?_print entry.plain_toJson]
  exact ofJson?_toJson h

end Entry

/-! ## Term and vote -/

namespace HardState

theorem plain_toJson (hard : HardState) : hard.toJson.Plain := by
  refine Json.plain_ofRecord fun field hfield => ?_
  simp only [List.mem_cons, List.not_mem_nil, or_false] at hfield
  rcases hfield with rfl | rfl
  · exact Json.plain_ofNat _
  · cases hard.votedFor with
    | none => trivial
    | some id => exact Json.plain_ofNat id

theorem ofJson?_toJson {hard : HardState} (h : hard.Fits IsWord) :
    ofJson? hard.toJson = some hard := by
  have hfields : hard.toJson.fields? ["current_term", "voted_for"] =
      some [some (.ofNat hard.currentTerm), some (.ofOption .ofNat hard.votedFor)] :=
    Json.fields?_ofRecord rfl (by decide)
  have hvote : Json.nullable Json.word? (.ofOption .ofNat hard.votedFor) =
      some hard.votedFor := by
    cases hvotedFor : hard.votedFor with
    | none => rfl
    | some id =>
        change (Json.word? (.ofNat id)).map some = _
        rw [Json.word?_ofNat (h.vote id hvotedFor)]
        rfl
  unfold ofJson?
  rw [hfields]
  change (Json.word? (.ofNat hard.currentTerm)).bind (fun term =>
    (Json.nullable Json.word? (.ofOption .ofNat hard.votedFor)).bind fun vote =>
      some (HardState.mk term vote)) = _
  rw [Json.word?_ofNat h.term, Option.bind_some, hvote]
  rfl

theorem decode?_encode {hard : HardState} (h : hard.Fits IsWord) :
    decode? hard.encode = some hard := by
  unfold decode? encode
  rw [Json.read?_print hard.plain_toJson]
  exact ofJson?_toJson h

end HardState

/-! ## Snapshots -/

namespace Snapshot

theorem plain_toJson (snapshot : Snapshot) : snapshot.toJson.Plain := by
  refine Json.plain_ofRecord fun field hfield => ?_
  simp only [List.mem_cons, List.not_mem_nil, or_false] at hfield
  rcases hfield with rfl | rfl | rfl | rfl
  · exact Json.plain_ofNat _
  · exact Json.plain_ofNat _
  · exact snapshot.members.plain_toJson
  · exact Json.plain_ofBytes _

theorem ofJson?_toJson {snapshot : Snapshot} (h : snapshot.Fits IsWord) :
    ofJson? snapshot.toJson = some snapshot := by
  have hfields : snapshot.toJson.fields?
      ["last_included_index", "last_included_term", "config", "data"] =
        some [some (.ofNat snapshot.index), some (.ofNat snapshot.term),
          some snapshot.members.toJson, some (.ofBytes snapshot.data)] :=
    Json.fields?_ofRecord rfl (by decide)
  unfold ofJson?
  rw [hfields]
  change (Json.word? (.ofNat snapshot.index)).bind (fun index =>
    (Json.word? (.ofNat snapshot.term)).bind fun term =>
      (NodeSet.ofJson? snapshot.members.toJson).bind fun members =>
        (Json.bytes? (.ofBytes snapshot.data)).bind fun data =>
          some (Snapshot.mk index term members data)) = _
  rw [Json.word?_ofNat h.index, Option.bind_some, Json.word?_ofNat h.term,
    Option.bind_some, NodeSet.ofJson?_toJson h.members, Option.bind_some,
    Json.bytes?_ofBytes]
  rfl

theorem decode?_encode {snapshot : Snapshot} (h : snapshot.Fits IsWord) :
    decode? snapshot.encode = some snapshot := by
  unfold decode? encode
  rw [Json.read?_print snapshot.plain_toJson]
  exact ofJson?_toJson h

end Snapshot

end Consensus
