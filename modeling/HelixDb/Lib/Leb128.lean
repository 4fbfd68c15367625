/-
  HelixDb.Lib.Leb128

  **MINIMAL UNSIGNED LEB128** of a bounded width: seven payload bits a byte,
  least significant group first, the top bit set on every byte but the last.

  A `Leb128 ε` fixes the width (the largest number of bytes, and the largest
  payload of the last one) and the reader's errors.

    • `put` / `putLen` — the writer and the number of bytes it emits,
    • `take` — the reader: rejects overlong and non-minimal input,
    • `Leb128.take_run_ok` — **the reader accepts exactly what the writer emits**,
      in front of any rest, for every value of the width.
-/
import HelixDb.Lib.Reader

namespace HelixDb.Lib

/-- A width of LEB128 integers and the errors of its reader. -/
structure Leb128 (ε : Type) where
  /-- Largest number of bytes of one integer, less one. -/
  maxTail : Nat
  /-- Largest payload of a byte at position `maxTail`. -/
  lastMax : Nat
  lastMax_lt : lastMax < 128
  /-- The rest is shorter than the bytes asked for. -/
  short : Nat → Nat → ε
  overflow : ε
  notMinimal : ε
  tooLong : ε

namespace Leb128

variable {ε : Type}

/-! ## §1. The writer. -/

/-- The writer's loop; `fuel` bounds the number of continuation bytes. -/
def put : Nat → Nat → Bytes
  | 0, value => [UInt8.ofNat value]
  | fuel + 1, value =>
    if value ≥ 0x80 then
      UInt8.ofNat ((value &&& 0x7F) ||| 0x80) :: put fuel (value >>> 7)
    else [UInt8.ofNat value]

/-- The number of bytes `put` emits. -/
def putLen : Nat → Nat → Nat
  | 0, _ => 1
  | fuel + 1, value => if value ≥ 0x80 then putLen fuel (value >>> 7) + 1 else 1

@[simp] theorem put_length (fuel : Nat) : ∀ v, (put fuel v).length = putLen fuel v := by
  induction fuel with
  | zero => intro v; rfl
  | succ fuel ih =>
    intro v
    simp only [put, putLen]
    split_ifs
    · rw [List.length_cons, ih]
    · rfl

theorem putLen_pos (fuel v : Nat) : 1 ≤ putLen fuel v := by
  cases fuel with
  | zero => exact le_refl 1
  | succ fuel =>
    simp only [putLen]
    split_ifs <;> omega

theorem putLen_le (fuel : Nat) : ∀ v, putLen fuel v ≤ fuel + 1 := by
  induction fuel with
  | zero => intro v; exact le_refl 1
  | succ fuel ih =>
    intro v
    simp only [putLen]
    split_ifs
    · have := ih (v >>> 7)
      omega
    · omega

/-! ## §2. The reader. -/

/-- The reader's loop: `left` bytes may still come, `index` have been read. -/
def takeLoop (E : Leb128 ε) : Nat → Nat → Nat → Reader ε Nat
  | 0, _, _ => throw E.tooLong
  | left + 1, index, value => do
    let bytes ← Reader.takeRaw E.short 1
    let byte := bytes.headD 0
    let payload := (byte &&& 0x7F).toNat
    Reader.rejectIf (index = E.maxTail ∧ payload > E.lastMax) E.overflow
    let value := value ||| (payload <<< (7 * index))
    if byte &&& 0x80 = 0 then do
      Reader.rejectIf (index > 0 ∧ byte = 0) E.notMinimal
      return value
    else takeLoop E left (index + 1) value

/-- Reads one minimal integer. -/
def take (E : Leb128 ε) : Reader ε Nat := E.takeLoop (E.maxTail + 1) 0 0

/-! ## §3. The reader accepts exactly what the writer emits. -/

/-- Below 128 a byte is its own payload and ends the integer. -/
theorem last_byte (v : Nat) (hv : v < 128) :
    (UInt8.ofNat v &&& 0x7F).toNat = v ∧ UInt8.ofNat v &&& 0x80 = 0 := by
  have h : ∀ v : Fin 128, (UInt8.ofNat v &&& 0x7F).toNat = v ∧ UInt8.ofNat v &&& 0x80 = 0 := by
    decide
  exact h ⟨v, hv⟩

/-- A continuation byte holds seven bits. -/
theorem continuation_byte (low : Nat) (hlow : low < 128) :
    (UInt8.ofNat (low ||| 0x80) &&& 0x7F).toNat = low ∧
      UInt8.ofNat (low ||| 0x80) &&& 0x80 ≠ 0 := by
  have h : ∀ v : Fin 128, (UInt8.ofNat (v.val ||| 0x80) &&& 0x7F).toNat = v ∧
      UInt8.ofNat (v.val ||| 0x80) &&& 0x80 ≠ 0 := by
    decide
  exact h ⟨low, hlow⟩

/-- Adding one group above `7 * index` accumulated bits. -/
theorem or_shift_eq (acc payload index : Nat) (hacc : acc < 128 ^ index) :
    acc ||| (payload <<< (7 * index)) = acc + payload * 128 ^ index := by
  have hpow : (128 : Nat) ^ index = 2 ^ (7 * index) := by
    rw [Nat.pow_mul]
  rw [hpow] at hacc ⊢
  rw [Nat.or_comm, ← Nat.shiftLeft_add_eq_or_of_lt hacc]
  omega

/-- A byte is its payload, with or without the continuation bit. -/
theorem byte_eq (b : UInt8) :
    (b &&& 0x80 = 0 → b = UInt8.ofNat (b &&& 0x7F).toNat) ∧
      (b &&& 0x80 ≠ 0 → b = UInt8.ofNat ((b &&& 0x7F).toNat ||| 0x80)) ∧
      (b &&& 0x7F).toNat < 128 := by
  have h : ∀ n : Fin 256, ∀ b : UInt8, b = UInt8.ofNat n →
      (b &&& 0x80 = 0 → b = UInt8.ofNat (b &&& 0x7F).toNat) ∧
      (b &&& 0x80 ≠ 0 → b = UInt8.ofNat ((b &&& 0x7F).toNat ||| 0x80)) ∧
      (b &&& 0x7F).toNat < 128 := by
    intro n b hb
    subst hb
    revert n
    decide +kernel
  exact h ⟨b.toNat, b.toNat_lt⟩ b UInt8.ofNat_toNat.symm

theorem put_of_lt (fuel : Nat) {v : Nat} (hv : v < 128) : put fuel v = [UInt8.ofNat v] := by
  cases fuel with
  | zero => rfl
  | succ fuel => rw [put, if_neg (by omega)]

theorem put_group (fuel : Nat) {low high : Nat} (hlow : low < 128) (hhigh : 0 < high) :
    put (fuel + 1) (low + high * 128) = UInt8.ofNat (low ||| 0x80) :: put fuel high := by
  have hmod : (low + high * 128) &&& 0x7F = low := by
    rw [Nat.and_two_pow_sub_one_eq_mod _ 7]
    omega
  have hshift : (low + high * 128) >>> 7 = high := by
    omega
  rw [put, if_pos (by omega), hmod, hshift]

/-- The first byte without a continuation bit is the last one written. -/
theorem findIdx?_put (fuel : Nat) : ∀ {v : Nat} (rest : Bytes), v < 128 ^ (fuel + 1) →
    ((put fuel v ++ rest).take (fuel + 1)).findIdx? (fun byte => byte &&& 0x80 == 0)
      = some (putLen fuel v - 1) := by
  induction fuel with
  | zero =>
    intro v rest hv
    show (([UInt8.ofNat v] : Bytes)).findIdx? _ = some 0
    rw [List.findIdx?_cons, if_pos (by rw [(last_byte v (by omega)).2]; rfl)]
  | succ fuel ih =>
    intro v rest hv
    unfold put putLen
    by_cases hbig : v ≥ 0x80
    · have hrest : v >>> 7 < 128 ^ (fuel + 1) := by
        rwa [Nat.shiftRight_eq_div_pow, Nat.div_lt_iff_lt_mul (by decide)]
      have hpos := putLen_pos fuel (v >>> 7)
      have hlow : v &&& 0x7F < 128 := Nat.and_lt_two_pow v (by decide : 0x7F < 2 ^ 7)
      rw [if_pos hbig, if_pos hbig, List.cons_append, List.take_succ_cons, List.findIdx?_cons,
        if_neg (by simpa using (continuation_byte _ hlow).2), ih rest hrest]
      show some (putLen fuel (v >>> 7) - 1 + 1) = _
      rw [Nat.sub_add_cancel hpos]
      rfl
    · rw [if_neg hbig, if_neg hbig, List.cons_append, List.take_succ_cons, List.findIdx?_cons,
        if_pos (by rw [(last_byte v (by omega)).2]; rfl)]

section Loop

variable (E : Leb128 ε) {left index acc v : Nat} {s t : Bytes}

/-- What one turn of the loop can do: end at a last group, or go on after a
continuation group. -/
theorem takeLoop_step (hacc : acc < 128 ^ index) :
    (E.takeLoop (left + 1) index acc).run s = .ok (v, t) ↔
      (∃ w < 128, v = acc + w * 128 ^ index ∧ s = UInt8.ofNat w :: t ∧
        (index = E.maxTail → w ≤ E.lastMax) ∧ (0 < index → 0 < w)) ∨
      ∃ low < 128, ∃ u, s = UInt8.ofNat (low ||| 0x80) :: u ∧
        (index = E.maxTail → low ≤ E.lastMax) ∧
        (E.takeLoop left (index + 1) (acc + low * 128 ^ index)).run u = .ok (v, t) := by
  simp only [takeLoop, Reader.bind_run_ok, Reader.takeRaw_run_ok, Reader.rejectIf_run_ok]
  constructor
  · rintro ⟨bytes, u, ⟨rfl, hlen⟩, _, _, ⟨hfits, rfl⟩, hrest⟩
    obtain ⟨byte, rfl⟩ := List.length_eq_one_iff.mp hlen
    obtain ⟨hlast, hcontinue, hpayload⟩ := byte_eq byte
    rw [or_shift_eq _ _ _ hacc] at hrest
    split at hrest
    next hstop =>
      simp only [Reader.bind_run_ok, Reader.rejectIf_run_ok, Reader.pure_run_ok] at hrest
      obtain ⟨_, _, ⟨hminimal, rfl⟩, hv, rfl⟩ := hrest
      refine .inl ⟨_, hpayload, hv, by rw [← hlast hstop]; rfl, ?_, fun hpos => ?_⟩
      · exact fun hi => Nat.not_lt.mp fun hgt => hfits ⟨hi, hgt⟩
      · by_contra hzero
        exact hminimal ⟨hpos, (hlast hstop).trans (by rw [Nat.eq_zero_of_not_pos hzero]; rfl)⟩
    next hgo =>
      exact .inr ⟨_, hpayload, _, by rw [← hcontinue hgo]; rfl,
        fun hi => Nat.not_lt.mp fun hgt => hfits ⟨hi, hgt⟩, hrest⟩
  · rintro (⟨w, hw, rfl, rfl, hmax, hpos⟩ | ⟨low, hlow, u, rfl, hmax, hrest⟩)
    · obtain ⟨hpay, hstop⟩ := last_byte w hw
      refine ⟨[UInt8.ofNat w], t, ⟨rfl, rfl⟩, (), t, ⟨?_, rfl⟩, ?_⟩
      · rintro ⟨hi, hgt⟩
        exact absurd (hmax hi) (Nat.not_le.mpr (hpay ▸ hgt))
      · rw [List.headD_cons, if_pos hstop, or_shift_eq _ _ _ hacc]
        refine Reader.bind_run_ok.mpr ⟨(), t, Reader.rejectIf_run_ok.mpr ⟨?_, rfl⟩, ?_⟩
        · rintro ⟨hi, hz⟩
          rw [show UInt8.ofNat w = 0 from hz] at hpay
          exact absurd (hpos hi) (by rw [← hpay]; decide)
        · exact Reader.pure_run_ok.mpr ⟨congrArg (acc + · * 128 ^ index) hpay.symm, rfl⟩
    · obtain ⟨hpay, hgo⟩ := continuation_byte low hlow
      refine ⟨[UInt8.ofNat (low ||| 0x80)], u, ⟨rfl, rfl⟩, (), u, ⟨?_, rfl⟩, ?_⟩
      · rintro ⟨hi, hgt⟩
        exact absurd (hmax hi) (Nat.not_le.mpr (hpay ▸ hgt))
      · rw [List.headD_cons, if_neg hgo, or_shift_eq _ _ _ hacc]
        rwa [← hpay] at hrest

/-- `w` is the number read from here on; the loop adds it above the bits it
holds already. -/
theorem takeLoop_run_ok (fuel : Nat) : ∀ {index acc : Nat} {s : Bytes},
    index + fuel = E.maxTail → acc < 128 ^ index →
    ((E.takeLoop (fuel + 1) index acc).run s = .ok (v, t) ↔
      ∃ w, v = acc + w * 128 ^ index ∧ s = put fuel w ++ t ∧ w < (E.lastMax + 1) * 128 ^ fuel ∧
        (0 < index → 0 < w)) := by
  have hlast := E.lastMax_lt
  induction fuel with
  | zero =>
    intro index acc s hindex hacc
    rw [takeLoop_step E hacc, Nat.pow_zero, Nat.mul_one]
    constructor
    · rintro (⟨w, -, hv, hs, hmax, hpos⟩ | ⟨_, _, _, _, _, hmore⟩)
      · exact ⟨w, hv, hs, Nat.lt_succ_of_le (hmax hindex), hpos⟩
      · exact nomatch hmore
    · rintro ⟨w, hv, hs, hw, hpos⟩
      exact .inl ⟨w, by omega, hv, hs, by omega, hpos⟩
  | succ fuel ih =>
    intro index acc s hindex hacc
    have hacc' : ∀ low < 128, acc + low * 128 ^ index < 128 ^ (index + 1) := by
      intro low hlow
      have hle := Nat.mul_le_mul_right (128 ^ index) (Nat.le_of_lt_succ (hlow : low < 127 + 1))
      omega
    have hgroup : ∀ low high, acc + low * 128 ^ index + high * 128 ^ (index + 1) =
        acc + (low + high * 128) * 128 ^ index := by
      intro low high
      ring
    rw [takeLoop_step E hacc, Nat.pow_succ, ← Nat.mul_assoc]
    constructor
    · rintro (⟨w, hw, hv, rfl, -, hpos⟩ | ⟨low, hlow, u, rfl, -, hmore⟩)
      · have hpow := Nat.pow_pos (n := fuel) (show 0 < 128 by decide)
        have hmul : 0 < (E.lastMax + 1) * 128 ^ fuel := Nat.mul_pos (Nat.succ_pos _) hpow
        exact ⟨w, hv, by rw [put_of_lt _ hw]; rfl, by omega, hpos⟩
      · obtain ⟨w, hv, rfl, hw, hpos⟩ := (ih (by omega) (hacc' low hlow)).mp hmore
        have hwpos := hpos (Nat.succ_pos index)
        exact ⟨low + w * 128, hv.trans (hgroup low w), by rw [put_group fuel hlow hwpos]; rfl,
          by omega, by omega⟩
    · rintro ⟨w, hv, rfl, hw, hpos⟩
      by_cases hsmall : w < 128
      · exact .inl ⟨w, hsmall, hv, by rw [put_of_lt _ hsmall]; rfl, by omega, hpos⟩
      · -- one more group: the low seven bits here, the rest in the recursive call
        have hlow := Nat.mod_lt w (show 0 < 128 by decide)
        have hsplit : w % 128 + w / 128 * 128 = w := by omega
        refine .inr ⟨w % 128, hlow, put fuel (w / 128) ++ t, ?_, by omega, ?_⟩
        · rw [← List.cons_append, ← put_group fuel hlow (by omega), hsplit]
        · refine (ih (by omega) (hacc' _ hlow)).mpr ⟨w / 128, ?_, rfl, by omega, by omega⟩
          rw [hgroup, hsplit, hv]

end Loop

/-- **The reader accepts exactly what the writer emits.** -/
theorem take_run_ok (E : Leb128 ε) {v : Nat} {s t : Bytes} :
    E.take.run s = .ok (v, t) ↔
      s = put E.maxTail v ++ t ∧ v < (E.lastMax + 1) * 128 ^ E.maxTail := by
  rw [take, takeLoop_run_ok E E.maxTail (Nat.zero_add _) Nat.one_pos]
  simp

end Leb128

end HelixDb.Lib
