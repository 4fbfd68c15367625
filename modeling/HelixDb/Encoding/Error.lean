/-
  HelixDb.Encoding.Error

  **THE ENCODING ERRORS** of the value codecs, with the texts they carry.

  Only the variants a modelled codec returns are here.  The payload of the
  UTF-8 error is left out: nothing reads it.
-/
import HelixDb.Lib.Leb128

namespace HelixDb.Encoding

open HelixDb.Lib

/-- Error type for encoding/decoding operations. -/
inductive EncodingError where
  | bufferTooShort (expected actual : Nat)
  | invalidEncodingType (byte : UInt8)
  | io (message : String)
  | invalidUtf8
  | invalidKey (message : String)
  | unexpectedValueKind (expected actual : UInt8)
  | custom (message : String)
deriving DecidableEq

/-- A byte as the format string `{:#04x}` prints it. -/
def hexByte (b : UInt8) : String :=
  "0x".push (Nat.digitChar (b.toNat / 16)) |>.push (Nat.digitChar (b.toNat % 16))

/-- Readers of the value codecs. -/
abbrev Read (α : Type) := Reader EncodingError α

/-- `usize::try_from` of a `u64`; `usize` has 64 bits. -/
def usizeFromU64 (message : String) (value : Nat) : Read Nat := do
  Reader.rejectIf (value ≥ 2 ^ 64) (.custom message)
  return value

end HelixDb.Encoding
