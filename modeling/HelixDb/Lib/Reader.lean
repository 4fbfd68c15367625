/-
  HelixDb.Lib.Reader

  **FORWARD READERS OVER A BYTE STRING**, and the composition rules for
  proving that a reader accepts what a writer produced.

  A `Reader ε α` consumes a prefix of its input and returns a value and the
  rest, or fails with an error of type `ε`.  `Reads p bs a n` says that `p`
  reads exactly the bytes `bs` to the value `a` in front of EVERY rest of at
  least `n` bytes; the bound `n` is what a reader needs that looks ahead at the
  length of the rest (a count checked against the bytes that remain).

    • `Reads.bind` — readers compose as their byte strings concatenate,
    • `Reads.pure`, `Reads.bind_nil` — the side rules,
    • `Reads.run_eq` — a reader run on exactly its bytes succeeds,
    • `Reader.bind_run_ok` and its siblings — what a run that succeeded has read,
    • `Reader.Skims` — a reader that checks exactly what another one reads.
-/
import HelixDb.Lib.Bytes

namespace HelixDb.Lib

open List

/-- A forward reader: a state transformer on the unread bytes. -/
abbrev Reader (ε α : Type) := StateT Bytes (Except ε) α

namespace Reader

variable {ε α β : Type}

/-- The number of unread bytes. -/
def remainingLen : Reader ε Nat := do
  return (← get).length

/-- Fails with `e` when the input is bad. -/
def rejectIf (bad : Prop) [Decidable bad] (e : ε) : Reader ε Unit :=
  if bad then throw e else return ()

/-- The next `len` bytes, or the error `short len remaining`. -/
def takeRaw (short : Nat → Nat → ε) (len : Nat) : Reader ε Bytes := do
  let remaining ← get
  if remaining.length < len then
    throw (short len remaining.length)
  set (remaining.drop len)
  return remaining.take len

/-- A check on values already read. -/
def ofExcept (x : Except ε α) : Reader ε α := StateT.lift x

/-- Runs `p` on a whole input and rejects trailing bytes. -/
def finish (trailing : Nat → ε) (p : Reader ε α) (input : Bytes) : Except ε α := do
  let (a, rest) ← p.run input
  if rest ≠ [] then
    throw (trailing rest.length)
  return a

/-- Runs `p` a number of times. -/
def times (p : Reader ε Unit) : Nat → Reader ε Unit
  | 0 => return ()
  | n + 1 => do
    p
    times p n

end Reader

/-! ## What a run that succeeded has read. -/

namespace Reader

variable {ε α β : Type} {p : Reader ε α} {f : α → Reader ε β} {s t : Bytes} {a : α} {b : β}

/-- **A run of two readers is a run of each.** -/
theorem bind_run_ok : (p >>= f).run s = .ok (b, t) ↔
    ∃ a u, p.run s = .ok (a, u) ∧ (f a).run u = .ok (b, t) := by
  rw [StateT.run_bind]
  cases hp : p.run s with
  | error e =>
    constructor
    · exact fun h => nomatch h
    · rintro ⟨a, u, h, -⟩
      exact nomatch h
  | ok result =>
    constructor
    · exact fun h => ⟨result.1, result.2, rfl, h⟩
    · rintro ⟨a, u, h, hf⟩
      cases h
      exact hf

theorem pure_run_ok {a' : α} : (pure a : Reader ε α).run s = .ok (a', t) ↔ a' = a ∧ t = s := by
  constructor
  · intro h
    cases h
    exact ⟨rfl, rfl⟩
  · rintro ⟨rfl, rfl⟩
    rfl

theorem throw_run_ok {e : ε} : (throw e : Reader ε α).run s = .ok (a, t) ↔ False :=
  iff_false_intro fun h => nomatch h

theorem rejectIf_run_ok {bad : Prop} [Decidable bad] {e : ε} {u : Unit} :
    (rejectIf bad e).run s = .ok (u, t) ↔ ¬ bad ∧ t = s := by
  unfold rejectIf
  split_ifs with h
  · rw [throw_run_ok]
    exact ⟨False.elim, fun hn => hn.1 h⟩
  · rw [pure_run_ok]
    exact ⟨fun hs => ⟨h, hs.2⟩, fun hs => ⟨rfl, hs.2⟩⟩

theorem ofExcept_run_ok {x : Except ε α} : (ofExcept x).run s = .ok (a, t) ↔ x = .ok a ∧ t = s := by
  cases x with
  | error e => exact ⟨(fun h => nomatch h), fun h => nomatch h.1⟩
  | ok value =>
    constructor
    · intro h
      cases h
      exact ⟨rfl, rfl⟩
    · rintro ⟨h, rfl⟩
      cases h
      rfl

theorem remainingLen_run_ok {n : Nat} :
    (remainingLen : Reader ε Nat).run s = .ok (n, t) ↔ n = s.length ∧ t = s :=
  pure_run_ok

/-- The bytes taken are the first ones. -/
theorem takeRaw_run_ok {short : Nat → Nat → ε} {len : Nat} {bs : Bytes} :
    (takeRaw short len).run s = .ok (bs, t) ↔ s = bs ++ t ∧ bs.length = len := by
  have hrun : (takeRaw short len).run s =
      if s.length < len then .error (short len s.length) else .ok (s.take len, s.drop len) := by
    unfold takeRaw
    simp only [StateT.run_bind, StateT.run_get, pure_bind]
    split_ifs <;> rfl
  rw [hrun]
  split_ifs with h
  · constructor
    · exact fun hs => nomatch hs
    · rintro ⟨rfl, rfl⟩
      rw [length_append] at h
      omega
  · constructor
    · intro hs
      cases hs
      exact ⟨(take_append_drop len s).symm, length_take_of_le (by omega)⟩
    · rintro ⟨rfl, rfl⟩
      rw [take_left, drop_left]

theorem takeByte_run_ok {short : Nat → Nat → ε} {byte : UInt8} :
    (do let bytes ← takeRaw short 1; return bytes.headD 0 : Reader ε UInt8).run s = .ok (byte, t) ↔
      s = byte :: t := by
  simp only [bind_run_ok, takeRaw_run_ok, pure_run_ok]
  constructor
  · rintro ⟨bytes, _, ⟨rfl, hlen⟩, rfl, rfl⟩
    obtain ⟨byte, rfl⟩ := length_eq_one_iff.mp hlen
    rfl
  · rintro rfl
    exact ⟨[byte], t, ⟨rfl, rfl⟩, rfl, rfl⟩

/-- A number of a fixed width, in either byte order. -/
theorem takeNat_run_ok {encode : Nat → Nat → Bytes} {decode : Bytes → Nat}
    (hlength : ∀ w n, (encode w n).length = w) (hlt : ∀ bs, decode bs < 256 ^ bs.length)
    (hencode : ∀ bs, encode bs.length (decode bs) = bs)
    (hdecode : ∀ w n, n < 256 ^ w → decode (encode w n) = n)
    {short : Nat → Nat → ε} {width n : Nat} :
    (do let bytes ← takeRaw short width; return decode bytes : Reader ε Nat).run s = .ok (n, t) ↔
      s = encode width n ++ t ∧ n < 256 ^ width := by
  simp only [bind_run_ok, takeRaw_run_ok, pure_run_ok]
  constructor
  · rintro ⟨bytes, _, ⟨rfl, rfl⟩, rfl, rfl⟩
    exact ⟨by rw [hencode], hlt bytes⟩
  · rintro ⟨rfl, hn⟩
    exact ⟨_, t, ⟨rfl, hlength width n⟩, (hdecode width n hn).symm, rfl⟩

/-- A whole input is accepted when the reader leaves nothing. -/
theorem finish_eq_ok {trailing : Nat → ε} :
    finish trailing p s = .ok a ↔ p.run s = .ok (a, []) := by
  unfold finish
  cases hp : p.run s with
  | error e => exact ⟨(fun h => nomatch h), fun h => nomatch h⟩
  | ok result =>
    obtain ⟨value, rest⟩ := result
    show (if rest ≠ [] then _ else _ : Except ε α) = _ ↔ _
    by_cases h : rest = []
    · subst h
      rw [if_neg (fun hne => hne rfl)]
      constructor
      · intro heq
        cases heq
        rfl
      · intro heq
        cases heq
        rfl
    · rw [if_pos h]
      constructor
      · exact fun heq => nomatch heq
      · intro heq
        cases heq
        exact absurd rfl h

/-! ## A reader that checks what another one reads. -/

/-- `p` accepts where `q` does and leaves the same rest. -/
def Skims (p : Reader ε Unit) (q : Reader ε α) : Prop :=
  ∀ s t, p.run s = .ok ((), t) ↔ ∃ a, q.run s = .ok (a, t)

namespace Skims

variable {γ : Type} {skip : Reader ε Unit} {g : α → Reader ε β}

theorem pure (a : α) : Skims (Pure.pure () : Reader ε Unit) (Pure.pure a) := by
  intro s t
  simp only [pure_run_ok, true_and, exists_eq_left]

theorem throw (e : ε) :
    Skims (MonadExcept.throw e : Reader ε Unit) (MonadExcept.throw e : Reader ε α) := by
  intro s t
  simp only [throw_run_ok, exists_false]

/-- Both read on after the same reader. -/
theorem bind {r : Reader ε γ} {k : γ → Reader ε Unit} {g : γ → Reader ε β}
    (h : ∀ c, Skims (k c) (g c)) : Skims (r >>= k) (r >>= g) := by
  intro s t
  simp only [bind_run_ok, h _ _ _]
  constructor
  · rintro ⟨c, u, hr, b, hg⟩
    exact ⟨b, c, u, hr, hg⟩
  · rintro ⟨b, c, u, hr, hg⟩
    exact ⟨c, u, hr, b, hg⟩

/-- **Composition**: what `skip` skims over is what `p` has read. -/
theorem seq {k : Unit → Reader ε Unit} (h : Skims skip p) (hk : ∀ a, Skims (k ()) (g a)) :
    Skims (skip >>= k) (p >>= g) := by
  intro s t
  simp only [bind_run_ok]
  constructor
  · rintro ⟨_, u, hskip, hrest⟩
    obtain ⟨a, hp⟩ := (h s u).mp hskip
    obtain ⟨b, hg⟩ := (hk a u t).mp hrest
    exact ⟨b, a, u, hp, hg⟩
  · rintro ⟨b, a, u, hp, hg⟩
    exact ⟨(), u, (h s u).mpr ⟨a, hp⟩, (hk a u t).mpr ⟨b, hg⟩⟩

theorem map (h : Skims skip p) (f : α → β) : Skims skip (p >>= fun a => Pure.pure (f a)) := by
  intro s t
  simp only [h s t, bind_run_ok, pure_run_ok]
  constructor
  · rintro ⟨a, hp⟩
    exact ⟨f a, a, t, hp, rfl, rfl⟩
  · rintro ⟨b, a, u, hp, -, rfl⟩
    exact ⟨a, hp⟩

theorem ite {c : Prop} [Decidable c] {p₁ p₂ : Reader ε Unit} {q₁ q₂ : Reader ε α}
    (h₁ : Skims p₁ q₁) (h₂ : Skims p₂ q₂) :
    Skims (if c then p₁ else p₂) (if c then q₁ else q₂) := by
  split
  · exact h₁
  · exact h₂

end Skims

end Reader

/-- **`p` reads `bs` to `a`** in front of every rest of at least `n` bytes. -/
def Reads {ε α : Type} (p : Reader ε α) (bs : Bytes) (a : α) (n : Nat) : Prop :=
  ∀ rest : Bytes, n ≤ rest.length → p.run (bs ++ rest) = .ok (a, rest)

namespace Reads

variable {ε α β : Type} {p : Reader ε α} {f : α → Reader ε β} {bs cs : Bytes}
  {a : α} {b : β} {m n : Nat}

theorem pure (a : α) : Reads (Pure.pure a : Reader ε α) [] a 0 :=
  fun _ _ => rfl

/-- **Composition**: the first reader's look-ahead is served by the second
reader's bytes and by the look-ahead of the whole. -/
theorem bind (hp : Reads p bs a m) (hf : Reads (f a) cs b n) (hm : m ≤ cs.length + n) :
    Reads (p >>= f) (bs ++ cs) b n := by
  intro rest hrest
  have hlen : m ≤ (cs ++ rest).length := by
    rw [length_append]
    omega
  rw [StateT.run_bind, append_assoc, hp (cs ++ rest) hlen]
  exact hf rest hrest

/-- Composition with a first reader that looks ahead at nothing. -/
theorem bind' (hp : Reads p bs a 0) (hf : Reads (f a) cs b n) : Reads (p >>= f) (bs ++ cs) b n :=
  bind hp hf (Nat.zero_le _)

/-- Composition in front of a reader that consumes nothing. -/
theorem bind_nil (hp : Reads p bs a m) (hf : Reads (f a) [] b n) (hm : m ≤ n) :
    Reads (p >>= f) bs b n := by
  have h := bind hp hf (by simpa using hm)
  rwa [append_nil] at h

/-- Composition behind a reader that consumes nothing. -/
theorem nil_bind (hp : Reads p [] a m) (hf : Reads (f a) bs b n) (hm : m ≤ bs.length + n) :
    Reads (p >>= f) bs b n :=
  bind hp hf hm

/-- A check that does not reject reads nothing. -/
theorem rejectIf {bad : Prop} [Decidable bad] {e : ε} (h : ¬ bad) :
    Reads (Reader.rejectIf bad e) [] () 0 :=
  fun _ _ => Reader.rejectIf_run_ok.mpr ⟨h, rfl⟩

/-- A reader behind a check that does not reject. -/
theorem rejectIf_bind {bad : Prop} [Decidable bad] {e : ε} {k : Unit → Reader ε β}
    (h : ¬ bad) (hk : Reads (k ()) bs b n) : Reads (Reader.rejectIf bad e >>= k) bs b n :=
  nil_bind (rejectIf h) hk (Nat.zero_le _)

/-- One reader after another, each for one value of a list. -/
theorem mapM {f : α → Reader ε β} {put : β → Bytes} {xs : List α} {ys : List β}
    (h : List.Forall₂ (fun x y => Reads (f x) (put y) y 0) xs ys) :
    Reads (xs.mapM f) (ys.flatMap put) ys 0 := by
  induction h with
  | nil => exact pure []
  | cons hy _ ih =>
    rw [mapM_cons, flatMap_cons]
    exact bind' hy (bind_nil ih (pure _) (le_refl 0))

/-- One reader as often as there are values. -/
theorem replicate (p : Reader ε α) (put : α → Bytes) (ys : List α)
    (h : ∀ y ∈ ys, Reads p (put y) y 0) :
    Reads ((List.replicate ys.length ()).mapM fun _ => p) (ys.flatMap put) ys 0 := by
  refine mapM ?_
  induction ys with
  | nil => exact List.Forall₂.nil
  | cons y ys ih =>
    obtain ⟨hy, hys⟩ := forall_mem_cons.mp h
    exact List.Forall₂.cons hy (ih hys)

/-- A reader run on exactly its bytes succeeds and leaves nothing. -/
theorem run_eq (h : Reads p bs a 0) : p.run bs = .ok (a, []) := by
  have h' := h [] (Nat.zero_le _)
  rwa [append_nil] at h'

theorem ofExcept {x : Except ε α} (h : x = .ok a) : Reads (Reader.ofExcept x) [] a 0 :=
  fun _ _ => Reader.ofExcept_run_ok.mpr ⟨h, rfl⟩

/-- A whole input that is exactly what `p` reads is accepted. -/
theorem finish_eq {trailing : Nat → ε} (h : Reads p bs a 0) :
    Reader.finish trailing p bs = .ok a :=
  Reader.finish_eq_ok.mpr h.run_eq

/-- Codes one after another, each read by `p`. -/
theorem times {p : Reader ε Unit} {enc : β → Bytes} (xs : List β)
    (h : ∀ x ∈ xs, Reads p (enc x) () 0) : Reads (p.times xs.length) (xs.flatMap enc) () 0 := by
  induction xs with
  | nil => exact pure ()
  | cons x xs ih =>
    obtain ⟨hx, hxs⟩ := forall_mem_cons.mp h
    rw [flatMap_cons]
    exact bind' hx (ih hxs)

theorem takeRaw_of_length (short : Nat → Nat → ε) {bs : Bytes} {len : Nat}
    (h : bs.length = len) : Reads (Reader.takeRaw short len) bs bs 0 :=
  fun _ _ => Reader.takeRaw_run_ok.mpr ⟨rfl, h⟩

/-- The next `bs.length` bytes are `bs`. -/
theorem takeRaw (short : Nat → Nat → ε) (bs : Bytes) :
    Reads (Reader.takeRaw short bs.length) bs bs 0 :=
  takeRaw_of_length short rfl

end Reads

end HelixDb.Lib
