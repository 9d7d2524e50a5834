import Consensus.Basic

/-!
# UTF-8

Text as bytes and back. Bytes that are not well-formed UTF-8 are no text.
-/

namespace Consensus.Utf8

/-- The bytes of a text. -/
def encode (text : String) : Bytes := text.toUTF8.toList

/-- The text that the bytes spell, if they are well formed. -/
def decode? (bytes : Bytes) : Option String := String.fromUTF8? bytes.toByteArray

end Consensus.Utf8
