import Consensus.Text.GraphemeExtend
import Consensus.Text.Unprintable

/-!
# Quoted text

Text between double quotes in which everything that would not print by itself is escaped.
Single quotes stay as they are.
-/

namespace Consensus.Text

/-- The lower-case hexadecimal digits of `n`, without leading zeros. -/
def hexadecimal (n : Nat) : String := String.ofList (Nat.toDigits 16 n)

/-- How one character stands inside quoted text. -/
def escapeChar (c : Char) : String :=
  match c.toNat with
  | 0 => "\\0"
  | 9 => "\\t"
  | 10 => "\\n"
  | 13 => "\\r"
  | 0x22 => "\\\""
  | 0x5c => "\\\\"
  | n =>
    if isGraphemeExtend c || isUnprintable c then
      "\\u\x7b" ++ hexadecimal n ++ "\x7d"
    else c.toString

/-- The text in double quotes, escaped. -/
def quoted (text : String) : String :=
  "\"" ++ String.join (text.toList.map escapeChar) ++ "\""

end Consensus.Text
