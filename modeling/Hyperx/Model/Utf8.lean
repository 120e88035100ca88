import Mathlib.Data.List.Basic

/-!
# UTF-8, as `str::from_utf8` checks it and a `String` stores it

Every header parser decodes its raw lines with `str::from_utf8` (`from_utf8(...)?`), and
every header written from its `Display` text goes on the wire as that text's bytes.
`fromUtf8` is the validator of the standard library as a byte-at-a-time automaton: a
lead byte announces one to three continuation bytes and narrows the range of the first
of them, so overlong forms, surrogates and code points above `U+10FFFF` are rejected.
`asBytes` is the encoding `char::encode_utf8` writes.

Two facts carry all the header round trips: decoding the bytes of a text gives the
text back (`fromUtf8_asBytes`), and an ASCII byte splits a byte string into two halves
that decode on their own (`fromUtf8_append_ascii`): no multi-byte sequence can run
across it.
-/

set_option autoImplicit false

namespace Hyperx.Model

/-! ## The validator -/

/-- Inside a multi-byte sequence: `need` continuation bytes still to come, the code point
bits read so far, and the range `lo ≤ b ≤ hi` the next byte must lie in, always among
the continuation bytes. -/
structure Pending where
  need : Nat
  acc : Nat
  lo : Nat
  hi : Nat
  lo_cont : 0x80 ≤ lo

/-- The lead byte of a multi-byte sequence and what it announces; `none` for a byte that
starts no sequence. -/
def lead (n : Nat) : Option Pending :=
  if n < 0xC2 then none
  else if n < 0xE0 then some ⟨1, n - 0xC0, 0x80, 0xBF, le_rfl⟩
  else if n < 0xF0 then
    some ⟨2, n - 0xE0, if n = 0xE0 then 0xA0 else 0x80, if n = 0xED then 0x9F else 0xBF,
      by split <;> decide⟩
  else if n < 0xF5 then
    some ⟨3, n - 0xF0, if n = 0xF0 then 0x90 else 0x80, if n = 0xF4 then 0x8F else 0xBF,
      by split <;> decide⟩
  else none

/-- One byte of the validator: `none` rejects the input, otherwise the next state and
the character the byte completes. -/
def step : Option Pending → UInt8 → Option (Option Pending × Option Char)
  | none, b =>
    if b.toNat < 0x80 then some (none, some (Char.ofNat b.toNat))
    else (lead b.toNat).map fun p => (some p, none)
  | some p, b =>
    if p.lo ≤ b.toNat ∧ b.toNat ≤ p.hi then
      if p.need = 1 then some (none, some (Char.ofNat (p.acc * 64 + (b.toNat - 0x80))))
      else some (some ⟨p.need - 1, p.acc * 64 + (b.toNat - 0x80), 0x80, 0xBF, le_rfl⟩, none)
    else none

/-- Decoding from a validator state; the input must not end inside a sequence. -/
def decode : Option Pending → List UInt8 → Option (List Char)
  | none, [] => some []
  | some _, [] => none
  | st, b :: bs => (step st b).bind fun (st', c) => (decode st' bs).map (c.toList ++ ·)

/-- `str::from_utf8`. -/
def fromUtf8 (bytes : List UInt8) : Option (List Char) := decode none bytes

example : fromUtf8 [0x61, 0xC3, 0xA9] = some ['a', 'é'] := by decide

/- An overlong `/` and an encoded surrogate are both rejected. -/
example : fromUtf8 [0xC0, 0xAF] = none ∧ fromUtf8 [0xED, 0xA0, 0x80] = none := by decide

/-! ## The encoding -/

/-- `char::encode_utf8`: one to four bytes, by the size of the code point. -/
def encodeUtf8 (c : Char) : List UInt8 :=
  let n := c.toNat
  if n < 0x80 then [UInt8.ofNat n]
  else if n < 0x800 then [UInt8.ofNat (0xC0 + n / 64), UInt8.ofNat (0x80 + n % 64)]
  else if n < 0x10000 then
    [UInt8.ofNat (0xE0 + n / 4096), UInt8.ofNat (0x80 + n / 64 % 64),
      UInt8.ofNat (0x80 + n % 64)]
  else
    [UInt8.ofNat (0xF0 + n / 262144), UInt8.ofNat (0x80 + n / 4096 % 64),
      UInt8.ofNat (0x80 + n / 64 % 64), UInt8.ofNat (0x80 + n % 64)]

/-- The bytes of a `String`. -/
def asBytes (s : List Char) : List UInt8 := s.flatMap encodeUtf8

/-! ## Decoding what was encoded -/

/-- A byte value below `256` survives the round trip through `UInt8`. -/
theorem toNat_ofNat {n : Nat} (h : n < 256) : (UInt8.ofNat n).toNat = n :=
  UInt8.toNat_ofNat_of_lt h

/-- A `char` is a Unicode scalar value. -/
theorem char_valid (c : Char) : c.toNat < 0xD800 ∨ 0xDFFF < c.toNat ∧ c.toNat < 0x110000 :=
  c.valid

/-- The last continuation byte completes the character. -/
theorem decode_cont_last {p : Pending} {b : UInt8} (hb : p.lo ≤ b.toNat ∧ b.toNat ≤ p.hi)
    (hn : p.need = 1) (bs : List UInt8) :
    decode (some p) (b :: bs) =
      (decode none bs).map (Char.ofNat (p.acc * 64 + (b.toNat - 0x80)) :: ·) := by
  simp [decode, step, hb, hn]

/-- A continuation byte before the last adds its six bits. -/
theorem decode_cont_more {p : Pending} {b : UInt8} (hb : p.lo ≤ b.toNat ∧ b.toNat ≤ p.hi)
    (hn : p.need ≠ 1) (bs : List UInt8) :
    decode (some p) (b :: bs) =
      decode (some ⟨p.need - 1, p.acc * 64 + (b.toNat - 0x80), 0x80, 0xBF, le_rfl⟩) bs := by
  simp [decode, step, hb, hn]

/-- A lead byte hands over to its sequence. -/
theorem decode_lead {b : UInt8} {p : Pending} (hb : 0x80 ≤ b.toNat) (hl : lead b.toNat = some p)
    (bs : List UInt8) : decode none (b :: bs) = decode (some p) bs := by
  simp [decode, step, hl, show ¬ b.toNat < 0x80 by omega]

/-- Where the lead byte of an encoded character sends the validator: `k` more bytes,
the bits above them, and a range that admits the next encoded byte. -/
def Leads (p : Pending) (k acc next : Nat) : Prop :=
  p.need = k ∧ p.acc = acc ∧ p.lo ≤ next ∧ next ≤ p.hi

/-- The lead byte of a two-byte encoding. -/
theorem lead_two {n : Nat} (h1 : 0x80 ≤ n) (h2 : n < 0x800) :
    ∃ p, lead (0xC0 + n / 64) = some p ∧ Leads p 1 (n / 64) (0x80 + n % 64) := by
  rw [lead, if_neg (by omega), if_pos (by omega)]
  exact ⟨_, rfl, rfl, by dsimp only; omega, by dsimp only; omega, by dsimp only; omega⟩

/-- The lead byte of a three-byte encoding; surrogates have none. -/
theorem lead_three {n : Nat} (h1 : 0x800 ≤ n) (h2 : n < 0x10000)
    (hs : n < 0xD800 ∨ 0xDFFF < n) :
    ∃ p, lead (0xE0 + n / 4096) = some p ∧ Leads p 2 (n / 4096) (0x80 + n / 64 % 64) := by
  rw [lead, if_neg (by omega), if_neg (by omega), if_pos (by omega)]
  exact ⟨_, rfl, rfl, by dsimp only; omega, by dsimp only; split <;> omega,
    by dsimp only; split <;> omega⟩

/-- The lead byte of a four-byte encoding. -/
theorem lead_four {n : Nat} (h1 : 0x10000 ≤ n) (h2 : n < 0x110000) :
    ∃ p, lead (0xF0 + n / 262144) = some p ∧ Leads p 3 (n / 262144) (0x80 + n / 4096 % 64) := by
  rw [lead, if_neg (by omega), if_neg (by omega), if_neg (by omega), if_pos (by omega)]
  exact ⟨_, rfl, rfl, by dsimp only; omega, by dsimp only; split <;> omega,
    by dsimp only; split <;> omega⟩

/-- Six-bit groups put back together. -/
theorem sixBits (n k : Nat) : n / (k * 64) * 64 + n / k % 64 = n / k := by
  rw [← Nat.div_div_eq_div_mul, Nat.div_add_mod']

/-- Decoding an encoded character gives it back and goes on with the rest. -/
theorem decode_encodeUtf8 (c : Char) (rest : List UInt8) :
    decode none (encodeUtf8 c ++ rest) = (decode none rest).map (c :: ·) := by
  have hv := char_valid c
  have hc : Char.ofNat c.toNat = c := Char.ofNat_toNat c
  simp only [encodeUtf8]
  generalize c.toNat = n at hv hc
  subst hc
  split_ifs with h1 h2 h3
  · simp [decode, step, toNat_ofNat (show n < 256 by omega), h1]
  · obtain ⟨p, hp, hn, ha, hlo, hhi⟩ := lead_two (n := n) (by omega) h2
    have e0 := toNat_ofNat (show 0xC0 + n / 64 < 256 by omega)
    have e1 := toNat_ofNat (show 0x80 + n % 64 < 256 by omega)
    rw [List.cons_append, List.cons_append, List.nil_append, decode_lead (by omega) (e0 ▸ hp),
      decode_cont_last (by omega) hn, e1, ha, Nat.add_sub_cancel_left, Nat.div_add_mod']
  · obtain ⟨p, hp, hn, ha, hlo, hhi⟩ := lead_three (n := n) (by omega) h3 (by omega)
    have e0 := toNat_ofNat (show 0xE0 + n / 4096 < 256 by omega)
    have e1 := toNat_ofNat (show 0x80 + n / 64 % 64 < 256 by omega)
    have e2 := toNat_ofNat (show 0x80 + n % 64 < 256 by omega)
    rw [List.cons_append, List.cons_append, List.cons_append, List.nil_append,
      decode_lead (by omega) (e0 ▸ hp), decode_cont_more (by omega) (by omega),
      decode_cont_last (by simp only [e2]; omega) (by simp [hn]), e1, e2, ha,
      Nat.add_sub_cancel_left, Nat.add_sub_cancel_left, show n / 4096 = n / (64 * 64) from rfl,
      sixBits, Nat.div_add_mod']
  · obtain ⟨p, hp, hn, ha, hlo, hhi⟩ := lead_four (n := n) (by omega) (by omega)
    have e0 := toNat_ofNat (show 0xF0 + n / 262144 < 256 by omega)
    have e1 := toNat_ofNat (show 0x80 + n / 4096 % 64 < 256 by omega)
    have e2 := toNat_ofNat (show 0x80 + n / 64 % 64 < 256 by omega)
    have e3 := toNat_ofNat (show 0x80 + n % 64 < 256 by omega)
    rw [List.cons_append, List.cons_append, List.cons_append, List.cons_append, List.nil_append,
      decode_lead (by omega) (e0 ▸ hp), decode_cont_more (by omega) (by omega),
      decode_cont_more (by simp only [e2]; omega) (by simp [hn]),
      decode_cont_last (by simp only [e3]; omega) (by simp [hn]), e1, e2, e3, ha,
      Nat.add_sub_cancel_left, Nat.add_sub_cancel_left, Nat.add_sub_cancel_left,
      show n / 262144 = n / (4096 * 64) from rfl, sixBits, show n / 4096 = n / (64 * 64) from rfl,
      sixBits, Nat.div_add_mod']

/-- Decoding the bytes of a text gives the text. -/
@[simp] theorem fromUtf8_asBytes (s : List Char) : fromUtf8 (asBytes s) = some s := by
  induction s with
  | nil => rfl
  | cons c s ih =>
    simp only [fromUtf8, asBytes, List.flatMap_cons] at ih ⊢
    rw [decode_encodeUtf8, ih]
    rfl

/-- A non-empty text has a non-empty encoding. -/
theorem asBytes_ne_nil {s : List Char} (hs : s ≠ []) : asBytes s ≠ [] := fun h =>
  hs (Option.some.inj (by rw [← fromUtf8_asBytes s, h]; rfl))

/-- Texts with the same bytes are the same text. -/
theorem asBytes_injective {s t : List Char} (h : asBytes s = asBytes t) : s = t := by
  simpa using congrArg fromUtf8 h

/-! ## ASCII separators -/

/-- An ASCII byte decodes to itself outside a sequence and breaks any sequence it falls
into. -/
theorem decode_append_ascii (st : Option Pending) (a : List UInt8) {x : UInt8}
    (hx : x.toNat < 0x80) (b : List UInt8) :
    decode st (a ++ x :: b) =
      (decode st a).bind fun s => (decode none b).map (s ++ Char.ofNat x.toNat :: ·) := by
  induction a generalizing st with
  | nil =>
    cases st with
    | none => simp [decode, step, hx]
    | some p => simp [decode, step, show ¬ p.lo ≤ x.toNat by have := p.lo_cont; omega]
  | cons y a ih =>
    simp only [List.cons_append, decode, ih]
    rcases step st y with _ | ⟨st', c⟩
    · rfl
    · rcases hd : decode st' a with _ | s <;> simp [hd, Function.comp_def]

/-- `from_utf8` of two byte strings joined by an ASCII byte. -/
theorem fromUtf8_append_ascii (a : List UInt8) {x : UInt8} (hx : x.toNat < 0x80)
    (b : List UInt8) :
    fromUtf8 (a ++ x :: b) =
      (fromUtf8 a).bind fun s => (fromUtf8 b).map (s ++ Char.ofNat x.toNat :: ·) :=
  decode_append_ascii none a hx b

end Hyperx.Model
