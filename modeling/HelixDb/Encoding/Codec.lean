/-
  HelixDb.Encoding.Codec

  **THE BOUNDED PRIMITIVES OF THE VALUE CODECS**: `take_slice` and the readers
  over it.

  The source reads a slice at an offset into the whole buffer and reports
  absolute positions.  Here the unread rest is the state, and `total`, the
  length of the whole buffer, recovers the offset as `total - rest`.  On a
  64-bit target the end of a slice of at most `u32::MAX` bytes does not
  overflow, so the overflow branch of the source is not modelled.
-/
import HelixDb.Encoding.Error

namespace HelixDb.Encoding

open HelixDb.Lib

/-- The bytes of a `u32`. -/
def U32_LEN : Nat := 4

/-- The next `len` bytes; the error counts from the start of the value. -/
def takeSlice (total len : Nat) : Read Bytes :=
  Reader.takeRaw (fun len rest => .bufferTooShort (total - rest + len) total) len

/-- One byte. -/
def takeU8 (total : Nat) : Read UInt8 := do
  let bytes ← takeSlice total 1
  return bytes.headD 0

/-- A little-endian `u32`. -/
def takeU32Le (total : Nat) : Read Nat := do
  let bytes ← takeSlice total U32_LEN
  return ofLe bytes

/-- A big-endian `u32`. -/
def takeU32Be (total : Nat) : Read Nat := do
  let bytes ← takeSlice total U32_LEN
  return ofBe bytes

variable {total n : Nat} {s t : Bytes}

theorem takeSlice_run_ok {len : Nat} {bs : Bytes} :
    (takeSlice total len).run s = .ok (bs, t) ↔ s = bs ++ t ∧ bs.length = len :=
  Reader.takeRaw_run_ok

theorem takeU8_run_ok {b : UInt8} : (takeU8 total).run s = .ok (b, t) ↔ s = b :: t :=
  Reader.takeByte_run_ok

theorem takeU32Be_run_ok :
    (takeU32Be total).run s = .ok (n, t) ↔ s = beBytes U32_LEN n ++ t ∧ n < 2 ^ 32 :=
  Reader.takeNat_run_ok beBytes_length ofBe_lt beBytes_ofBe ofBe_beBytes

theorem takeU32Le_run_ok :
    (takeU32Le total).run s = .ok (n, t) ↔ s = leBytes U32_LEN n ++ t ∧ n < 2 ^ 32 :=
  Reader.takeNat_run_ok leBytes_length ofLe_lt leBytes_ofLe ofLe_leBytes

theorem takeU8_reads (b : UInt8) : Reads (takeU8 total) [b] b 0 :=
  fun _ _ => takeU8_run_ok.mpr rfl

theorem takeU32Be_reads (h : n < 2 ^ 32) : Reads (takeU32Be total) (beBytes U32_LEN n) n 0 :=
  fun _ _ => takeU32Be_run_ok.mpr ⟨rfl, h⟩

end HelixDb.Encoding
