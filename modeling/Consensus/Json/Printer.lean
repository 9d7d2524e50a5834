import Consensus.Json.Basic
import Consensus.Text.Utf8

/-!
# Writing JSON

Values are written without blanks. The pretty form puts every item and member on a line of
its own, two spaces deeper than what holds it, and a space after each colon.
-/

namespace Consensus.Json

mutual

/-- The value without blanks. -/
def print : Json → Bytes
  | .null => [0x6e, 0x75, 0x6c, 0x6c]
  | .bool true => [0x74, 0x72, 0x75, 0x65]
  | .bool false => [0x66, 0x61, 0x6c, 0x73, 0x65]
  | .number spelling => spelling
  | .text body => 0x22 :: (body ++ [0x22])
  | .array items => 0x5b :: (printItems items ++ [0x5d])
  | .object members => 0x7b :: (printMembers members ++ [0x7d])

/-- The items, separated by commas. -/
def printItems : List Json → Bytes
  | [] => []
  | [item] => print item
  | item :: items => print item ++ 0x2c :: printItems items

/-- The members, separated by commas. -/
def printMembers : List (Bytes × Json) → Bytes
  | [] => []
  | [(name, value)] => 0x22 :: (name ++ 0x22 :: 0x3a :: print value)
  | (name, value) :: members =>
    0x22 :: (name ++ 0x22 :: 0x3a :: (print value ++ 0x2c :: printMembers members))

end

/-- A line break and the indentation of the given depth. -/
def newline (depth : Nat) : Bytes := 0x0a :: List.replicate (2 * depth) 0x20

mutual

/-- The value with every item and member on its own line. -/
def pretty (depth : Nat) : Json → Bytes
  | .array [] => [0x5b, 0x5d]
  | .array items => 0x5b :: (prettyItems (depth + 1) items ++ newline depth ++ [0x5d])
  | .object [] => [0x7b, 0x7d]
  | .object members => 0x7b :: (prettyMembers (depth + 1) members ++ newline depth ++ [0x7d])
  | .null => print .null
  | .bool value => print (.bool value)
  | .number spelling => print (.number spelling)
  | .text body => print (.text body)

/-- The items, each on its own line. -/
def prettyItems (depth : Nat) : List Json → Bytes
  | [] => []
  | [item] => newline depth ++ pretty depth item
  | item :: items => newline depth ++ pretty depth item ++ 0x2c :: prettyItems depth items

/-- The members, each on its own line. -/
def prettyMembers (depth : Nat) : List (Bytes × Json) → Bytes
  | [] => []
  | [(name, value)] =>
    newline depth ++ 0x22 :: (name ++ 0x22 :: 0x3a :: 0x20 :: pretty depth value)
  | (name, value) :: members =>
    newline depth ++ 0x22 :: (name ++ 0x22 :: 0x3a :: 0x20 :: pretty depth value) ++
      0x2c :: prettyMembers depth members

end

end Consensus.Json
