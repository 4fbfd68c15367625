/-
  HelixDb.Lib.Bytes

  **FIXED-WIDTH INTEGERS AS BYTE STRINGS.**

  A byte string is a `List UInt8`, compared by the lexicographic order of
  `List` (unsigned bytes, a proper prefix first).  The module gives the two
  fixed-width integer layouts every binary format uses and the facts a format
  proof needs about them:

    • `beBytes w n` / `ofBe` — big-endian, most significant byte first,
    • `leBytes w n` / `ofLe` — little-endian,
    • the round trips in both directions,
    • `utf8Bytes` / `ofUtf8?` — text as its UTF-8 bytes.
-/
import Mathlib

namespace HelixDb.Lib

/-- A byte string. -/
abbrev Bytes := List UInt8

/-! ## §1. Big-endian integers. -/

/-- The `w` low bytes of `n`, most significant first. -/
def beBytes : Nat → Nat → Bytes
  | 0, _ => []
  | w + 1, n => UInt8.ofNat (n / 256 ^ w) :: beBytes w (n % 256 ^ w)

/-- The number a big-endian byte string holds. -/
def ofBe : Bytes → Nat
  | [] => 0
  | b :: bs => b.toNat * 256 ^ bs.length + ofBe bs

@[simp] theorem beBytes_length (w : Nat) : ∀ n, (beBytes w n).length = w := by
  induction w with
  | zero => intro n; rfl
  | succ w ih => intro n; simp [beBytes, ih]

/-- A byte string of length `w` holds a number below `256 ^ w`. -/
theorem ofBe_lt (bs : Bytes) : ofBe bs < 256 ^ bs.length := by
  induction bs with
  | nil => simp [ofBe]
  | cons b bs ih =>
    have hb : b.toNat < 256 := b.toNat_lt
    simp only [ofBe, List.length_cons]
    have hmul : (b.toNat + 1) * 256 ^ bs.length ≤ 256 * 256 ^ bs.length :=
      Nat.mul_le_mul_right _ hb
    rw [Nat.add_mul] at hmul
    omega

/-- **Reading back what was written.** -/
theorem ofBe_beBytes (w : Nat) : ∀ n, n < 256 ^ w → ofBe (beBytes w n) = n := by
  induction w with
  | zero => intro n h; simp at h; simp [beBytes, ofBe, h]
  | succ w ih =>
    intro n h
    have hpos : 0 < 256 ^ w := Nat.pow_pos (by decide)
    have hdiv : n / 256 ^ w < 256 := by
      rwa [Nat.div_lt_iff_lt_mul hpos, Nat.mul_comm]
    simp only [beBytes, ofBe, beBytes_length]
    rw [ih _ (Nat.mod_lt _ hpos), UInt8.toNat_ofNat', Nat.mod_eq_of_lt hdiv,
        Nat.mul_comm]
    exact Nat.div_add_mod n (256 ^ w)

/-- **Writing back what was read.** -/
theorem beBytes_ofBe (bs : Bytes) : beBytes bs.length (ofBe bs) = bs := by
  induction bs with
  | nil => rfl
  | cons b bs ih =>
    have hpos : 0 < 256 ^ bs.length := Nat.pow_pos (by decide)
    have hlt := ofBe_lt bs
    simp only [List.length_cons, beBytes, ofBe]
    rw [Nat.mul_comm, Nat.mul_add_div hpos, Nat.div_eq_of_lt hlt,
        Nat.mul_add_mod, Nat.mod_eq_of_lt hlt, ih, Nat.add_zero,
        UInt8.ofNat_toNat]

/-- Two numbers of one width with equal byte strings are equal. -/
theorem beBytes_inj {w a b : Nat} (ha : a < 256 ^ w) (hb : b < 256 ^ w)
    (h : beBytes w a = beBytes w b) : a = b := by
  rw [← ofBe_beBytes w a ha, ← ofBe_beBytes w b hb, h]

/-! ## §2. Little-endian integers. -/

/-- The `w` low bytes of `n`, least significant first. -/
def leBytes (w n : Nat) : Bytes := (beBytes w n).reverse

/-- The number a little-endian byte string holds. -/
def ofLe (bs : Bytes) : Nat := ofBe bs.reverse

@[simp] theorem leBytes_length (w n : Nat) : (leBytes w n).length = w := by
  simp [leBytes]

theorem leBytes_ofLe (bs : Bytes) : leBytes bs.length (ofLe bs) = bs := by
  have h := beBytes_ofBe bs.reverse
  rw [List.length_reverse] at h
  rw [leBytes, ofLe, h, List.reverse_reverse]

theorem ofLe_lt (bs : Bytes) : ofLe bs < 256 ^ bs.length := by
  have h := ofBe_lt bs.reverse
  rwa [List.length_reverse] at h

theorem ofLe_leBytes (w n : Nat) (h : n < 256 ^ w) : ofLe (leBytes w n) = n := by
  rw [ofLe, leBytes, List.reverse_reverse, ofBe_beBytes w n h]

/-! ## §3. UTF-8 text. -/

/-- The UTF-8 bytes of a text. -/
def utf8Bytes (s : String) : Bytes := s.toByteArray.data.toList

/-- The text a byte string holds, if it is valid UTF-8. -/
def ofUtf8? (bs : Bytes) : Option String := String.fromUTF8? ⟨bs.toArray⟩

@[simp] theorem ofUtf8?_utf8Bytes (s : String) : ofUtf8? (utf8Bytes s) = some s := by
  unfold ofUtf8? utf8Bytes String.fromUTF8?
  rw [dif_pos s.isValidUTF8]
  rfl

theorem utf8Bytes_of_ofUtf8? {bs : Bytes} {s : String} (h : ofUtf8? bs = some s) :
    utf8Bytes s = bs := by
  unfold ofUtf8? String.fromUTF8? at h
  split at h
  · rw [← Option.some.inj h]
    rfl
  · exact nomatch h

theorem utf8Bytes_injective : Function.Injective utf8Bytes := by
  intro s t h
  have hs := ofUtf8?_utf8Bytes s
  rw [h, ofUtf8?_utf8Bytes] at hs
  exact (Option.some.inj hs).symm

end HelixDb.Lib
