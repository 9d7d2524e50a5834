import Consensus.Json.Grammar
import Consensus.Text.Utf8

/-!
# Numbers and texts in JSON

Writing: a natural number in plain decimal digits; a text with quotes, backslashes and control
characters escaped and all else as it is. Reading: only plain digits below a bound make a
natural number, and a body makes a text if its escapes spell characters and its bytes are
well-formed UTF-8.
-/

namespace Consensus.Json

/-- The decimal digits of a number, without leading zeros. -/
def decimal (n : Nat) : Bytes :=
  if n < 10 then [UInt8.ofNat (0x30 + n)]
  else decimal (n / 10) ++ [UInt8.ofNat (0x30 + n % 10)]

/-- The number that a run of digits spells. -/
def digitsValue (digits : Bytes) : Nat :=
  digits.foldl (fun n d => 10 * n + (d.toNat - 0x30)) 0

/-- A natural number. -/
def ofNat (n : Nat) : Json := .number (decimal n)

/-- A natural number below `bound`, spelled in digits only. -/
def nat? (bound : Nat) : Json → Option Nat
  | .number spelling =>
    if spelling.all isDigit && decide (digitsValue spelling < bound) then
      some (digitsValue spelling)
    else none
  | _ => none

/-- A number of at most 64 bits. -/
def word? : Json → Option Nat := nat? wordBound

/-- A truth value. -/
def bool? : Json → Option Bool
  | .bool value => some value
  | _ => none

/-- A lower-case hexadecimal digit. -/
def hexDigit (n : Nat) : UInt8 := UInt8.ofNat (if n < 10 then 0x30 + n else 0x61 + (n - 10))

/-- How one byte of a text stands in its body. -/
def escapeByte (b : UInt8) : Bytes :=
  match b with
  | 0x22 => [0x5c, 0x22]
  | 0x5c => [0x5c, 0x5c]
  | 0x08 => [0x5c, 0x62]
  | 0x0c => [0x5c, 0x66]
  | 0x0a => [0x5c, 0x6e]
  | 0x0d => [0x5c, 0x72]
  | 0x09 => [0x5c, 0x74]
  | b =>
    if b < 0x20 then
      [0x5c, 0x75, 0x30, 0x30, hexDigit (b.toNat / 16), hexDigit (b.toNat % 16)]
    else [b]

/-- The body of a text: its bytes, escaped. -/
def escape (bytes : Bytes) : Bytes := bytes.flatMap escapeByte

/-- A text. -/
def ofText (text : String) : Json := .text (escape (Utf8.encode text))

/-- The number that four hexadecimal digits spell. -/
def hexWord? (a b c d : UInt8) : Option Nat := do
  return (((← hexDigit? a) * 16 + (← hexDigit? b)) * 16 + (← hexDigit? c)) * 16 + (← hexDigit? d)

/-- Whether a 16-bit unit opens a surrogate pair. -/
def isHighSurrogate (n : Nat) : Bool := 0xd800 ≤ n && n < 0xdc00

/-- Whether a 16-bit unit closes a surrogate pair. -/
def isLowSurrogate (n : Nat) : Bool := 0xdc00 ≤ n && n < 0xe000

/-- The bytes of the character with the given code point. -/
def encodePoint (n : Nat) : Bytes := String.utf8EncodeChar (Char.ofNat n)

/-- The bytes that a body stands for. Escaped characters beyond 16 bits are written as a high
and a low surrogate; a surrogate alone stands for nothing. -/
def unescape? : Bytes → Option Bytes
  | [] => some []
  | 0x5c :: 0x75 :: a :: b :: c :: d :: 0x5c :: 0x75 :: e :: f :: g :: h :: rest => do
    let unit ← hexWord? a b c d
    if isHighSurrogate unit then
      let low ← hexWord? e f g h
      if isLowSurrogate low then
        return encodePoint (0x10000 + (unit - 0xd800) * 0x400 + (low - 0xdc00)) ++
          (← unescape? rest)
      else none
    else if isLowSurrogate unit then none
    else return encodePoint unit ++ (← unescape? (0x5c :: 0x75 :: e :: f :: g :: h :: rest))
  | 0x5c :: 0x75 :: a :: b :: c :: d :: rest => do
    let unit ← hexWord? a b c d
    if isHighSurrogate unit || isLowSurrogate unit then none
    else return encodePoint unit ++ (← unescape? rest)
  | 0x5c :: e :: rest => do
    let b ← simpleEscape? e
    return b :: (← unescape? rest)
  | b :: rest =>
    if b == 0x5c then none else (unescape? rest).map (b :: ·)

/-- The text that a body spells. -/
def bodyText? (body : Bytes) : Option String := unescape? body >>= Utf8.decode?

/-- A text. -/
def text? : Json → Option String
  | .text body => bodyText? body
  | _ => none

end Consensus.Json
