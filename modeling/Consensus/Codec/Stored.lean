import Consensus.Json.Record
import Consensus.Membership
import Consensus.Storage

/-!
# The JSON form of stored values

Members, entries, term and vote, snapshots and membership changes. Each type has a form to
write and a reader that accepts what its form writes.
-/

namespace Consensus

namespace NodeSet

/-- A membership as a record of its ids. -/
def toJson (members : NodeSet) : Json :=
  .ofRecord [("members", .ofList .ofNat members.toList)]

/-- Read a membership; repeated ids count once. -/
def ofJson? (j : Json) : Option NodeSet :=
  match j.fields? ["members"] with
  | some [members] => (Json.required (Json.list? Json.word?) members).map ofList
  | _ => none

end NodeSet

namespace Payload

/-- What an entry carries, by alternative. -/
def toJson : Payload → Json
  | .noop => .ofText "Noop"
  | .command bytes => .ofVariant "Command" (.ofBytes bytes)
  | .config members => .ofVariant "Config" members.toJson

/-- Read what an entry carries. -/
def ofJson? (j : Json) : Option Payload :=
  match j.variant? with
  | some ("Noop", content) => if Json.isBare content then some .noop else none
  | some ("Command", some content) => content.bytes?.map .command
  | some ("Config", some content) => (NodeSet.ofJson? content).map .config
  | _ => none

end Payload

namespace Entry

/-- An entry as a record. -/
def toJson (e : Entry) : Json :=
  .ofRecord [("term", .ofNat e.term), ("index", .ofNat e.index), ("payload", e.payload.toJson)]

/-- Read an entry. -/
def ofJson? (j : Json) : Option Entry :=
  match j.fields? ["term", "index", "payload"] with
  | some [term, index, payload] => do
    return ⟨← Json.required Json.word? term, ← Json.required Json.word? index,
      ← Json.required Payload.ofJson? payload⟩
  | _ => none

/-- The bytes of an entry. -/
def encode (e : Entry) : Bytes := e.toJson.print

/-- The entry that the bytes spell. -/
def decode? (bytes : Bytes) : Option Entry := Json.read? bytes >>= ofJson?

end Entry

namespace HardState

/-- Term and vote as a record. -/
def toJson (s : HardState) : Json :=
  .ofRecord [("current_term", .ofNat s.currentTerm), ("voted_for", .ofOption .ofNat s.votedFor)]

/-- Read term and vote. -/
def ofJson? (j : Json) : Option HardState :=
  match j.fields? ["current_term", "voted_for"] with
  | some [term, vote] => do
    return ⟨← Json.required Json.word? term, ← Json.optional Json.word? vote⟩
  | _ => none

/-- The bytes of term and vote. -/
def encode (s : HardState) : Bytes := s.toJson.print

/-- The term and vote that the bytes spell. -/
def decode? (bytes : Bytes) : Option HardState := Json.read? bytes >>= ofJson?

end HardState

namespace Snapshot

/-- A snapshot as a record. -/
def toJson (s : Snapshot) : Json :=
  .ofRecord [("last_included_index", .ofNat s.index), ("last_included_term", .ofNat s.term),
    ("config", s.members.toJson), ("data", .ofBytes s.data)]

/-- Read a snapshot. -/
def ofJson? (j : Json) : Option Snapshot :=
  match j.fields? ["last_included_index", "last_included_term", "config", "data"] with
  | some [index, term, members, data] => do
    return ⟨← Json.required Json.word? index, ← Json.required Json.word? term,
      ← Json.required NodeSet.ofJson? members, ← Json.required Json.bytes? data⟩
  | _ => none

/-- The bytes of a snapshot. -/
def encode (s : Snapshot) : Bytes := s.toJson.print

/-- The snapshot that the bytes spell. -/
def decode? (bytes : Bytes) : Option Snapshot := Json.read? bytes >>= ofJson?

end Snapshot

namespace ServerChange

/-- A change by alternative. -/
def toJson : ServerChange → Json
  | .add id => .ofVariant "AddServer" (.ofNat id)
  | .remove id => .ofVariant "RemoveServer" (.ofNat id)

/-- Read a change. -/
def ofJson? (j : Json) : Option ServerChange :=
  match j.variant? with
  | some ("AddServer", some id) => id.word?.map .add
  | some ("RemoveServer", some id) => id.word?.map .remove
  | _ => none

/-- The bytes of a change. -/
def encode (c : ServerChange) : Bytes := c.toJson.print

/-- The change that the bytes spell. -/
def decode? (bytes : Bytes) : Option ServerChange := Json.read? bytes >>= ofJson?

end ServerChange

end Consensus
