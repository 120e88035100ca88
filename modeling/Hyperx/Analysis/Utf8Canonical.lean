import Hyperx.Model.Utf8

/-!
# `from_utf8` accepts exactly the encodings of texts

`fromUtf8_asBytes` reads every encoded text back. This module proves the other half: a
byte string that `from_utf8` accepts is the encoding of the text it returns
(`fromUtf8_eq_some_iff`). So the validator admits no second spelling of a character, no
overlong form, no surrogate and nothing above `U+10FFFF`, and a header that keeps an
accepted line as text writes the same bytes back.

The proof reads one character at a time (`decode_none_cons_inv`). The continuation steps
are inverted once (`decode_some_inv_last`, `decode_some_inv_more`); each class of lead
bytes (two, three or four bytes in all) then needs one arithmetic fact, that
`char::encode_utf8` of the code point the sequence spells writes the sequence
(`encodeUtf8_two`, `encodeUtf8_three`, `encodeUtf8_four`).
-/

set_option autoImplicit false

namespace Hyperx.Analysis.Utf8Canonical

open Hyperx.Model

/-- `Char.ofNat` keeps a Unicode scalar value. -/
theorem charOfNat_toNat {n : Nat} (h : n < 0xD800 ∨ 0xDFFF < n ∧ n < 0x110000) :
    (Char.ofNat n).toNat = n := by
  rw [Char.ofNat, dif_pos h]
  rfl

/-- A byte is the `UInt8` of its value. -/
theorem ofNat_eq_of_toNat {n : Nat} {b : UInt8} (h : n = b.toNat) : UInt8.ofNat n = b :=
  UInt8.toNat.inj (by rw [toNat_ofNat (h ▸ b.toNat_lt_size)]; exact h)

/-! ## The continuation steps, inverted -/

/-- The last continuation byte of a sequence: it lies in the announced range, completes
the character, and the rest decodes on its own. -/
theorem decode_some_inv_last {p : Pending} {bs : List UInt8} {s : List Char}
    (h : decode (some p) bs = some s) (hn : p.need = 1) :
    ∃ b rest s', bs = b :: rest ∧ p.lo ≤ b.toNat ∧ b.toNat ≤ p.hi ∧
      s = Char.ofNat (p.acc * 64 + (b.toNat - 0x80)) :: s' ∧ decode none rest = some s' := by
  rcases bs with _ | ⟨b, rest⟩
  · cases h
  · by_cases hb : p.lo ≤ b.toNat ∧ b.toNat ≤ p.hi
    · rw [decode_cont_last hb hn] at h
      obtain ⟨s', hs', rfl⟩ := Option.map_eq_some'.mp h
      exact ⟨b, rest, s', rfl, hb.1, hb.2, rfl, hs'⟩
    · simp [decode, step, hb] at h

/-- A continuation byte that is not the last: it lies in the announced range, and the
rest decodes from the state it leaves. -/
theorem decode_some_inv_more {p : Pending} {bs : List UInt8} {s : List Char}
    (h : decode (some p) bs = some s) (hn : p.need ≠ 1) :
    ∃ b rest, bs = b :: rest ∧ p.lo ≤ b.toNat ∧ b.toNat ≤ p.hi ∧
      decode (some ⟨p.need - 1, p.acc * 64 + (b.toNat - 0x80), 0x80, 0xBF, le_rfl⟩) rest =
        some s := by
  rcases bs with _ | ⟨b, rest⟩
  · cases h
  · by_cases hb : p.lo ≤ b.toNat ∧ b.toNat ≤ p.hi
    · exact ⟨b, rest, rfl, hb.1, hb.2, (decode_cont_more hb hn rest).symm.trans h⟩
    · simp [decode, step, hb] at h

/-! ## Each lead-byte class spells the encoding of its code point -/

/-- The three classes of lead bytes and the validator state each one starts. -/
theorem lead_eq_some {n : Nat} {p : Pending} (h : lead n = some p) :
    (0xC2 ≤ n ∧ n < 0xE0 ∧ p.need = 1 ∧ p.acc = n - 0xC0 ∧
      p.lo = 0x80 ∧ p.hi = 0xBF) ∨
    (0xE0 ≤ n ∧ n < 0xF0 ∧ p.need = 2 ∧ p.acc = n - 0xE0 ∧
      p.lo = (if n = 0xE0 then 0xA0 else 0x80) ∧ p.hi = (if n = 0xED then 0x9F else 0xBF)) ∨
    (0xF0 ≤ n ∧ n < 0xF5 ∧ p.need = 3 ∧ p.acc = n - 0xF0 ∧
      p.lo = (if n = 0xF0 then 0x90 else 0x80) ∧ p.hi = (if n = 0xF4 then 0x8F else 0xBF)) := by
  unfold lead at h
  by_cases h1 : n < 0xC2
  · rw [if_pos h1] at h; cases h
  rw [if_neg h1] at h
  by_cases h2 : n < 0xE0
  · rw [if_pos h2] at h; cases h; exact .inl ⟨by omega, h2, rfl, rfl, rfl, rfl⟩
  rw [if_neg h2] at h
  by_cases h3 : n < 0xF0
  · rw [if_pos h3] at h; cases h; exact .inr (.inl ⟨by omega, h3, rfl, rfl, rfl, rfl⟩)
  rw [if_neg h3] at h
  by_cases h4 : n < 0xF5
  · rw [if_pos h4] at h; cases h; exact .inr (.inr ⟨by omega, h4, rfl, rfl, rfl, rfl⟩)
  rw [if_neg h4] at h; cases h

/-- Two bytes `0xC0 + a`, `0x80 + b` spell the code point `a * 64 + b`, which is not
overlong when `a ≥ 2`. -/
theorem encodeUtf8_two {a b : Nat} (ha : 2 ≤ a ∧ a < 32) (hb : b < 64) :
    encodeUtf8 (Char.ofNat (a * 64 + b)) = [UInt8.ofNat (0xC0 + a), UInt8.ofNat (0x80 + b)] := by
  simp only [encodeUtf8, @charOfNat_toNat (a * 64 + b) (by omega)]
  rw [if_neg (by omega), if_pos (by omega), show (a * 64 + b) / 64 = a by omega,
    show (a * 64 + b) % 64 = b by omega]

/-- Three bytes `0xE0 + a`, `0x80 + b`, `0x80 + c` spell `(a * 64 + b) * 64 + c`; the
ranges after `0xE0` and `0xED` keep out overlong forms and surrogates. -/
theorem encodeUtf8_three {a b c : Nat} (ha : a < 16) (hb : b < 64) (hc : c < 64)
    (hlo : a = 0 → 32 ≤ b) (hhi : a = 13 → b < 32) :
    encodeUtf8 (Char.ofNat ((a * 64 + b) * 64 + c)) =
      [UInt8.ofNat (0xE0 + a), UInt8.ofNat (0x80 + b), UInt8.ofNat (0x80 + c)] := by
  have hn : 0x800 ≤ (a * 64 + b) * 64 + c ∧ (a * 64 + b) * 64 + c < 0x10000 ∧
      ((a * 64 + b) * 64 + c < 0xD800 ∨ 0xDFFF < (a * 64 + b) * 64 + c) := by
    omega
  clear hlo hhi
  simp only [encodeUtf8, @charOfNat_toNat ((a * 64 + b) * 64 + c) (by omega)]
  rw [if_neg (by omega), if_neg (by omega), if_pos hn.2.1,
    show (a * 64 + b) * 64 + c = a * 4096 + (b * 64 + c) by omega,
    show (a * 4096 + (b * 64 + c)) / 4096 = a by omega,
    show (a * 4096 + (b * 64 + c)) / 64 % 64 = b by omega,
    show (a * 4096 + (b * 64 + c)) % 64 = c by omega]

/-- Four bytes `0xF0 + a`, `0x80 + b`, `0x80 + c`, `0x80 + d` spell
`((a * 64 + b) * 64 + c) * 64 + d`; the ranges after `0xF0` and `0xF4` keep it between
`U+10000` and `U+10FFFF`. -/
theorem encodeUtf8_four {a b c d : Nat} (ha : a < 5) (hb : b < 64) (hc : c < 64) (hd : d < 64)
    (hlo : a = 0 → 16 ≤ b) (hhi : a = 4 → b < 16) :
    encodeUtf8 (Char.ofNat (((a * 64 + b) * 64 + c) * 64 + d)) =
      [UInt8.ofNat (0xF0 + a), UInt8.ofNat (0x80 + b), UInt8.ofNat (0x80 + c),
        UInt8.ofNat (0x80 + d)] := by
  have hn : 0x10000 ≤ ((a * 64 + b) * 64 + c) * 64 + d ∧
      ((a * 64 + b) * 64 + c) * 64 + d < 0x110000 := by
    omega
  clear hlo hhi
  simp only [encodeUtf8,
    @charOfNat_toNat (((a * 64 + b) * 64 + c) * 64 + d) (.inr ⟨by omega, hn.2⟩)]
  rw [if_neg (by omega), if_neg (by omega), if_neg (by omega),
    show ((a * 64 + b) * 64 + c) * 64 + d = a * 262144 + (b * 4096 + (c * 64 + d)) by omega,
    show (a * 262144 + (b * 4096 + (c * 64 + d))) / 262144 = a by omega,
    show (a * 262144 + (b * 4096 + (c * 64 + d))) / 4096 % 64 = b by omega,
    show (a * 262144 + (b * 4096 + (c * 64 + d))) / 64 % 64 = c by omega,
    show (a * 262144 + (b * 4096 + (c * 64 + d))) % 64 = d by omega]

/-! ## One character at a time -/

/-- A byte at least `k` is the `UInt8` of `k` plus its excess over `k`. -/
theorem ofNat_add_sub {k : Nat} {b : UInt8} (h : k ≤ b.toNat) :
    UInt8.ofNat (k + (b.toNat - k)) = b :=
  ofNat_eq_of_toNat (by omega)

/-- What `from_utf8` accepts starts with the encoding of the first character it returns. -/
theorem decode_none_cons_inv {b : UInt8} {bs : List UInt8} {s : List Char}
    (h : decode none (b :: bs) = some s) :
    ∃ c s' rest, s = c :: s' ∧ decode none rest = some s' ∧ b :: bs = encodeUtf8 c ++ rest ∧
      rest.length < bs.length + 1 := by
  by_cases hb : b.toNat < 0x80
  · simp only [decode, step, hb, if_pos, Option.some_bind] at h
    obtain ⟨s', hs', rfl⟩ := Option.map_eq_some'.mp h
    refine ⟨_, s', bs, rfl, hs', ?_, Nat.lt_succ_self _⟩
    simp [encodeUtf8, @charOfNat_toNat b.toNat (.inl (by omega)), hb,
      ofNat_eq_of_toNat (rfl : b.toNat = b.toNat)]
  rcases hl : lead b.toNat with _ | p
  · simp [decode, step, hb, hl] at h
  rw [decode_lead (by omega) hl] at h
  rcases lead_eq_some hl with ⟨h1, h2, hn, ha, hlo, hhi⟩ | ⟨h1, h2, hn, ha, hlo, hhi⟩ |
    ⟨h1, h2, hn, ha, hlo, hhi⟩
  · obtain ⟨y, rest, s', rfl, hy1, hy2, rfl, hs'⟩ := decode_some_inv_last h hn
    refine ⟨_, s', rest, rfl, hs', ?_, by simp only [List.length_cons]; omega⟩
    rw [hlo] at hy1
    rw [hhi] at hy2
    rw [ha, @encodeUtf8_two (b.toNat - 0xC0) (y.toNat - 0x80) (by omega) (by omega),
      ofNat_add_sub (by omega : 0xC0 ≤ b.toNat), ofNat_add_sub hy1]
    rfl
  · obtain ⟨y, rest₁, rfl, hy1, hy2, h⟩ := decode_some_inv_more h (by omega)
    obtain ⟨z, rest, s', rfl, hz1, hz2, rfl, hs'⟩ :=
      decode_some_inv_last h (by dsimp only; omega)
    dsimp only at hz1 hz2
    refine ⟨_, s', rest, rfl, hs', ?_, by simp only [List.length_cons]; omega⟩
    have hy : 0x80 ≤ y.toNat ∧ y.toNat ≤ 0xBF ∧ (b.toNat = 0xE0 → 0xA0 ≤ y.toNat) ∧
        (b.toNat = 0xED → y.toNat ≤ 0x9F) := by
      rw [hlo] at hy1; rw [hhi] at hy2; split_ifs at hy1 hy2 <;> omega
    rw [ha, @encodeUtf8_three (b.toNat - 0xE0) (y.toNat - 0x80) (z.toNat - 0x80) (by omega)
        (by omega) (by omega) (by omega) (by omega),
      ofNat_add_sub h1, ofNat_add_sub hy.1, ofNat_add_sub hz1]
    rfl
  · obtain ⟨y, rest₁, rfl, hy1, hy2, h⟩ := decode_some_inv_more h (by omega)
    obtain ⟨z, rest₂, rfl, hz1, hz2, h⟩ := decode_some_inv_more h (by dsimp only; omega)
    obtain ⟨w, rest, s', rfl, hw1, hw2, rfl, hs'⟩ :=
      decode_some_inv_last h (by dsimp only; omega)
    dsimp only at hz1 hz2 hw1 hw2
    refine ⟨_, s', rest, rfl, hs', ?_, by simp only [List.length_cons]; omega⟩
    have hy : 0x80 ≤ y.toNat ∧ y.toNat ≤ 0xBF ∧ (b.toNat = 0xF0 → 0x90 ≤ y.toNat) ∧
        (b.toNat = 0xF4 → y.toNat ≤ 0x8F) := by
      rw [hlo] at hy1; rw [hhi] at hy2; split_ifs at hy1 hy2 <;> omega
    rw [ha, @encodeUtf8_four (b.toNat - 0xF0) (y.toNat - 0x80) (z.toNat - 0x80) (w.toNat - 0x80)
        (by omega) (by omega) (by omega) (by omega) (by omega) (by omega),
      ofNat_add_sub h1, ofNat_add_sub hy.1, ofNat_add_sub hz1, ofNat_add_sub hw1]
    rfl

/-- Whatever the validator accepts is the encoding of the text it returns. -/
theorem asBytes_of_decode : ∀ {bs : List UInt8} {s : List Char},
    decode none bs = some s → asBytes s = bs
  | [], s, h => by
    cases h
    rfl
  | b :: bs, s, h => by
    obtain ⟨c, s', rest, rfl, hs', heq, _⟩ := decode_none_cons_inv h
    rw [heq, asBytes, List.flatMap_cons, ← asBytes, asBytes_of_decode hs']
termination_by bs => bs.length

/-- UTF-8 canonicity: `from_utf8` accepts a byte string exactly when it is the encoding of
a text, and then returns that text; so decoding and encoding are inverse bijections
between the byte strings it accepts and all texts. -/
theorem fromUtf8_eq_some_iff (bytes : List UInt8) (s : List Char) :
    fromUtf8 bytes = some s ↔ asBytes s = bytes :=
  ⟨asBytes_of_decode, fun h => h ▸ fromUtf8_asBytes s⟩

end Hyperx.Analysis.Utf8Canonical
