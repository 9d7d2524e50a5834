import Consensus.Json.Printer
import Consensus.Json.Scalar

/-!
# Records, lists and variants in JSON

A record is an object with its fields in a fixed order when written. When read, the fields may
come in any order, unknown ones are passed over, a known one may come once only, and an
optional one may be missing; an array of exactly the fields' values will do as well. A variant
is an object whose one member is named for the alternative; an alternative without content is
the name alone, or an object that gives the name a null.
-/

namespace Consensus.Json

/-- A record with its fields in order. -/
def ofRecord (fields : List (String × Json)) : Json :=
  .object (fields.map fun (name, value) => (escape (Utf8.encode name), value))

/-- A list of values. -/
def ofList {α : Type} (form : α → Json) (items : List α) : Json := .array (items.map form)

/-- A list of bytes, as a list of numbers. -/
def ofBytes (bytes : Bytes) : Json := ofList (fun b => ofNat b.toNat) bytes

/-- A value or null. -/
def ofOption {α : Type} (form : α → Json) : Option α → Json
  | none => .null
  | some a => form a

/-- The alternative `name` with its content. -/
def ofVariant (name : String) (content : Json) : Json := ofRecord [(name, content)]

/-- The value of the field `name`, if it comes once; `some none` if it does not come. -/
def uniqueField? (members : List (String × Json)) (name : String) : Option (Option Json) :=
  match members.filter fun m => m.1 == name with
  | [] => some none
  | [m] => some (some m.2)
  | _ => none

/-- The values of a record's fields, in the order of `names`; `none` for a missing one. -/
def fields? (names : List String) : Json → Option (List (Option Json))
  | .object members => do
    let named ← members.mapM fun (body, value) => do return ((← bodyText? body), value)
    names.mapM (uniqueField? named)
  | .array items => if items.length = names.length then some (items.map some) else none
  | _ => none

/-- The content of a field that has to be there. -/
def required {α : Type} (form : Json → Option α) : Option Json → Option α
  | none => none
  | some value => form value

/-- A value or null. -/
def nullable {α : Type} (form : Json → Option α) : Json → Option (Option α)
  | .null => some none
  | value => (form value).map some

/-- The content of a field that may be missing or null. -/
def optional {α : Type} (form : Json → Option α) : Option Json → Option (Option α)
  | none => some none
  | some value => nullable form value

/-- A list of values. -/
def list? {α : Type} (form : Json → Option α) : Json → Option (List α)
  | .array items => items.mapM form
  | _ => none

/-- A list of bytes. -/
def bytes? : Json → Option Bytes := list? fun item => (nat? 256 item).map UInt8.ofNat

/-- The name of the alternative and its content, if there is any. -/
def variant? : Json → Option (String × Option Json)
  | .text body => (bodyText? body).map fun name => (name, none)
  | .object [(body, content)] => (bodyText? body).map fun name => (name, some content)
  | _ => none

/-- Whether an alternative without content has been written as such. -/
def isBare : Option Json → Bool
  | none => true
  | some .null => true
  | some _ => false

end Consensus.Json
