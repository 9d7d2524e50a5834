import Consensus.Basic

/-!
# JSON values

A value keeps the spelling of its numbers and the body of its texts as bytes, as they were
written. Meaning is read off later, and only where a value is used: a number that no one asks
for may be out of any range, and a text that no one reads may hold any bytes.
-/

namespace Consensus

/-- A JSON value, its numbers and texts as written. -/
inductive Json where
  | null
  | bool (value : Bool)
  /-- A number by its spelling. -/
  | number (spelling : Bytes)
  /-- A text by what stands between its quotes. -/
  | text (body : Bytes)
  | array (items : List Json)
  /-- Members in the order written; names by what stands between their quotes. -/
  | object (members : List (Bytes × Json))
deriving Inhabited

end Consensus
