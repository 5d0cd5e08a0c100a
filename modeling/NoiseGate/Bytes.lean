/-!
# Bytes and texts

Streams, buffers and files are lists of bytes, and every length is counted in bytes. Texts are
lists of characters.
-/

namespace NoiseGate

abbrev Bytes := List UInt8

abbrev Text := List Char

/-- The bytes of a text of ASCII characters. -/
def ascii (text : String) : Bytes := text.toList.map fun c => c.val.toUInt8

/-- The largest length that can be counted. -/
def wordMax : Nat := UInt64.size - 1

end NoiseGate
