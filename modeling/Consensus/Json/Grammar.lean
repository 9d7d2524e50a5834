import Consensus.Json.Basic

/-!
# Reading JSON

The grammar over bytes. Nothing is interpreted here: a text body is checked for complete
escapes and the absence of control characters, a number for its shape. Values may nest to any
depth; every call of the reader spends one unit of fuel, and a text of `n` bytes needs at most
`2 * n + 2` of them, since each pair of nested calls takes at least one byte.
-/

namespace Consensus.Json

/-- Space, line feed, carriage return and tab may stand between tokens. -/
def isBlankByte (b : UInt8) : Bool := b == 0x20 || b == 0x0a || b == 0x0d || b == 0x09

/-- What follows the blanks. -/
def skipBlank (s : Bytes) : Bytes := s.dropWhile isBlankByte

/-- Whether the byte is a decimal digit. -/
def isDigit (b : UInt8) : Bool := 0x30 ≤ b && b ≤ 0x39

/-- The value of a hexadecimal digit of either case. -/
def hexDigit? (b : UInt8) : Option Nat :=
  if 0x30 ≤ b && b ≤ 0x39 then some (b.toNat - 0x30)
  else if 0x61 ≤ b && b ≤ 0x66 then some (b.toNat - 0x61 + 10)
  else if 0x41 ≤ b && b ≤ 0x46 then some (b.toNat - 0x41 + 10)
  else none

/-- The byte that a one-letter escape stands for. -/
def simpleEscape? (b : UInt8) : Option UInt8 :=
  match b with
  | 0x22 => some 0x22
  | 0x5c => some 0x5c
  | 0x2f => some 0x2f
  | 0x62 => some 0x08
  | 0x66 => some 0x0c
  | 0x6e => some 0x0a
  | 0x72 => some 0x0d
  | 0x74 => some 0x09
  | _ => none

/-- The body of a text whose opening quote has been read, and what follows its closing quote. -/
def readBody? : Bytes → Option (Bytes × Bytes)
  | [] => none
  | 0x22 :: rest => some ([], rest)
  | 0x5c :: 0x75 :: a :: b :: c :: d :: rest =>
    if (hexDigit? a).isSome && (hexDigit? b).isSome && (hexDigit? c).isSome &&
        (hexDigit? d).isSome then
      (readBody? rest).map fun (body, rest) =>
        (0x5c :: 0x75 :: a :: b :: c :: d :: body, rest)
    else none
  | 0x5c :: e :: rest =>
    if (simpleEscape? e).isSome then
      (readBody? rest).map fun (body, rest) => (0x5c :: e :: body, rest)
    else none
  | b :: rest =>
    if b < 0x20 || b == 0x5c then none
    else (readBody? rest).map fun (body, rest) => (b :: body, rest)

/-- A run of at least one digit, and what follows it. -/
def readDigits? (s : Bytes) : Option (Bytes × Bytes) :=
  let digits := s.takeWhile isDigit
  if digits.isEmpty then none else some (digits, s.dropWhile isDigit)

/-- The whole part of a number: a lone zero, or digits that do not start with zero. -/
def readWhole? : Bytes → Option (Bytes × Bytes)
  | 0x30 :: rest => some ([0x30], rest)
  | s => readDigits? s

/-- The digits after the point, with the point; nothing if there is no point. -/
def readFraction? : Bytes → Option (Bytes × Bytes)
  | 0x2e :: rest => (readDigits? rest).map fun (digits, rest) => (0x2e :: digits, rest)
  | s => some ([], s)

/-- The exponent with its mark and sign; nothing if there is no mark. -/
def readExponent? : Bytes → Option (Bytes × Bytes)
  | mark :: rest =>
    if mark == 0x65 || mark == 0x45 then
      match rest with
      | 0x2b :: rest => (readDigits? rest).map fun (ds, rest) => (mark :: 0x2b :: ds, rest)
      | 0x2d :: rest => (readDigits? rest).map fun (ds, rest) => (mark :: 0x2d :: ds, rest)
      | rest => (readDigits? rest).map fun (ds, rest) => (mark :: ds, rest)
    else some ([], mark :: rest)
  | [] => some ([], [])

/-- A number's spelling and what follows it. -/
def readNumber? (s : Bytes) : Option (Bytes × Bytes) := do
  let (sign, s) : Bytes × Bytes := match s with
    | 0x2d :: rest => ([0x2d], rest)
    | s => ([], s)
  let (whole, s) ← readWhole? s
  let (fraction, s) ← readFraction? s
  let (exponent, s) ← readExponent? s
  return (sign ++ whole ++ fraction ++ exponent, s)

/-- A literal or a number. -/
def readAtom? : Bytes → Option (Json × Bytes)
  | 0x6e :: 0x75 :: 0x6c :: 0x6c :: rest => some (.null, rest)
  | 0x74 :: 0x72 :: 0x75 :: 0x65 :: rest => some (.bool true, rest)
  | 0x66 :: 0x61 :: 0x6c :: 0x73 :: 0x65 :: rest => some (.bool false, rest)
  | s => (readNumber? s).map fun (spelling, rest) => (.number spelling, rest)

mutual

/-- A value, blanks before it skipped, and what follows it. -/
def readValue? : Nat → Bytes → Option (Json × Bytes)
  | 0, _ => none
  | fuel + 1, s =>
    match skipBlank s with
    | 0x22 :: rest => (readBody? rest).map fun (body, rest) => (.text body, rest)
    | 0x5b :: rest =>
      match skipBlank rest with
      | 0x5d :: rest => some (.array [], rest)
      | _ => (readItems? fuel rest).map fun (items, rest) => (.array items, rest)
    | 0x7b :: rest =>
      match skipBlank rest with
      | 0x7d :: rest => some (.object [], rest)
      | _ => (readMembers? fuel rest).map fun (members, rest) => (.object members, rest)
    | s => readAtom? s

/-- The items of an array up to and including its closing bracket; at least one. -/
def readItems? : Nat → Bytes → Option (List Json × Bytes)
  | 0, _ => none
  | fuel + 1, s => do
    let (item, s) ← readValue? fuel s
    match skipBlank s with
    | 0x5d :: rest => return ([item], rest)
    | 0x2c :: rest =>
      let (items, rest) ← readItems? fuel rest
      return (item :: items, rest)
    | _ => none

/-- The members of an object up to and including its closing brace; at least one. -/
def readMembers? : Nat → Bytes → Option (List (Bytes × Json) × Bytes)
  | 0, _ => none
  | fuel + 1, s =>
    match skipBlank s with
    | 0x22 :: rest => do
      let (name, s) ← readBody? rest
      match skipBlank s with
      | 0x3a :: rest =>
        let (value, s) ← readValue? fuel rest
        match skipBlank s with
        | 0x7d :: rest => return ([(name, value)], rest)
        | 0x2c :: rest =>
          let (members, rest) ← readMembers? fuel rest
          return ((name, value) :: members, rest)
        | _ => none
      | _ => none
    | _ => none

end

/-- The value that the bytes spell, blanks around it allowed and nothing else. -/
def read? (s : Bytes) : Option Json := do
  let (value, rest) ← readValue? (2 * s.length + 2) s
  if (skipBlank rest).isEmpty then return value else none

end Consensus.Json
