import Hyperx.Analysis.Utf8Canonical
import Hyperx.Model.AccessControlAllowOrigin
import Hyperx.Model.LastEventId
import Hyperx.Model.AccessControlAllowCredentials

/-!
# Decoding, then encoding, gives the field back

The other half of a header round trip starts on the wire: a field that `parse_header`
accepts, written back by `Display`, should be the field itself when it was written
canonically. For the headers that keep a line as text this rests on `from_utf8`
accepting nothing but encodings of texts (`asBytes_of_decode`).

`Access-Control-Allow-Origin` writes every field it accepts back byte for byte
(`allowOrigin_parseHeader_fmt_bytes`). `Last-Event-ID` trims the line it reads: the id
written by `Display` comes back exactly when it has no surrounding whitespace, and an
accepted field comes back exactly when its text has none (`lastEventId_codec`).

`Access-Control-Allow-Credentials` compares the raw bytes with `true` up to ASCII case,
without checking that they are UTF-8. Lowercasing the bytes of a text is encoding its
ASCII lowercasing (`map_asciiLowercaseByte_asBytes`), and a line whose bytes lowercase to
`true` has ASCII bytes only; so the header accepts exactly the lines that encode a text
whose ASCII lowercasing is `true` (`allowCredentials_parseHeader_iff`), and the comment
that justifies the unchecked conversion holds.
-/

set_option autoImplicit false

namespace Hyperx.Analysis.WireCanonical

open Hyperx.Model Hyperx.Analysis.Utf8Canonical

/-! ## `Access-Control-Allow-Origin` -/

/-- ACAO re-emission: every field `parse_header` accepts is the one line `Display` writes
for the value it returns. -/
theorem allowOrigin_parseHeader_fmt_bytes (lines : List (List UInt8))
    (v : AccessControlAllowOrigin) (h : AccessControlAllowOrigin.parseHeader ⟨lines⟩ = .ok v) :
    lines = [asBytes v.fmt] := by
  rcases lines with _ | ⟨line, _ | ⟨line₂, rest⟩⟩ <;>
    simp only [AccessControlAllowOrigin.parseHeader, Raw.one] at h
  · cases h
  · split_ifs at h with h1 h2
    · cases h
      rw [h1]
      rfl
    · cases h
      rw [h2]
      rfl
    · split at h
      · cases h
        exact congrArg (· :: []) (asBytes_of_decode ‹_›).symm
      · cases h
  · cases h

/-- The source's third test line. -/
theorem allowOrigin_parseHeader_fmt_bytes_google :
    AccessControlAllowOrigin.parseHeader ⟨[asBytes "http://google.com/".toList]⟩ =
        .ok (.value "http://google.com/".toList) ∧
      [asBytes "http://google.com/".toList] =
        [asBytes (AccessControlAllowOrigin.value "http://google.com/".toList).fmt] :=
  have h : AccessControlAllowOrigin.parseHeader ⟨[asBytes "http://google.com/".toList]⟩ =
      .ok (.value "http://google.com/".toList) := rfl
  ⟨h, allowOrigin_parseHeader_fmt_bytes _ _ h⟩

/-! ## `Last-Event-ID` -/

/-- The `Display` line of an id reads back as the id without its surrounding whitespace. -/
theorem lastEventId_parseHeader_fmt (e : LastEventId) :
    LastEventId.parseHeader ⟨[asBytes e.fmt]⟩ = .ok ⟨trim e.id⟩ := by
  by_cases he : e.id = []
  · simp [LastEventId.parseHeader, Raw.one, LastEventId.fmt, he, asBytes]
    rfl
  · simp [LastEventId.parseHeader, Raw.one, LastEventId.fmt, asBytes_ne_nil he, fromRawStr,
      Except.map]

/-- A field `parse_header` accepts is one line holding the encoding of a text, and the id
read is that text trimmed. -/
theorem lastEventId_parseHeader_ok {lines : List (List UInt8)} {e : LastEventId}
    (h : LastEventId.parseHeader ⟨lines⟩ = .ok e) :
    ∃ s, lines = [asBytes s] ∧ e.id = trim s := by
  rcases lines with _ | ⟨line, _ | ⟨line₂, rest⟩⟩ <;>
    simp only [LastEventId.parseHeader, Raw.one] at h
  · cases h
  · split_ifs at h with hempty
    · cases h
      exact ⟨[], by simpa using hempty, rfl⟩
    · simp only [fromRawStr] at h
      split at h
      · cases h
      · next s hs =>
        cases h
        exact ⟨s, congrArg (· :: []) (asBytes_of_decode hs).symm, rfl⟩
  · cases h

/-- Last-Event-ID codec: `parse_header` of the line `Display` writes gives an id back
exactly when the id has no surrounding whitespace (the empty id, the reset, included);
and every field it accepts is one line holding the encoding of a text whose trim is the
id, so `Display` gives that field back exactly when the text has no surrounding
whitespace. -/
theorem lastEventId_codec (e : LastEventId) :
    (LastEventId.parseHeader ⟨[asBytes e.fmt]⟩ = .ok e ↔ trim e.id = e.id) ∧
      ∀ lines : List (List UInt8), LastEventId.parseHeader ⟨lines⟩ = .ok e →
        ∃ s, lines = [asBytes s] ∧ e.id = trim s ∧ (lines = [asBytes e.fmt] ↔ trim s = s) := by
  refine ⟨?_, fun lines h => ?_⟩
  · rw [lastEventId_parseHeader_fmt]
    obtain ⟨id⟩ := e
    simp
  · obtain ⟨s, rfl, hid⟩ := lastEventId_parseHeader_ok h
    refine ⟨s, rfl, hid, ?_⟩
    simp only [LastEventId.fmt, hid, List.cons.injEq, and_true]
    exact ⟨fun h => asBytes_injective h.symm, fun h => by rw [h]⟩

/-! ## `Access-Control-Allow-Credentials` -/

/-- `u8::to_ascii_lowercase` adds `0x20` to an upper-case ASCII letter and keeps every
other byte. -/
theorem toNat_asciiLowercaseByte (b : UInt8) :
    (asciiLowercaseByte b).toNat =
      if 0x41 ≤ b.toNat ∧ b.toNat ≤ 0x5A then b.toNat + 0x20 else b.toNat := by
  unfold asciiLowercaseByte
  split_ifs with h
  · exact toNat_ofNat (by omega)
  · rfl

/-- `eq_ignore_ascii_case` is equality after lowercasing every byte. -/
theorem eqAscii_iff (a b : List UInt8) :
    eqAscii a b = true ↔ a.map asciiLowercaseByte = b.map asciiLowercaseByte := by
  induction a generalizing b with
  | nil => cases b <;> simp [eqAscii]
  | cons x a ih =>
    cases b with
    | nil => simp [eqAscii]
    | cons y b =>
      have h := ih b
      simp only [eqAscii, Bool.and_eq_true, beq_iff_eq, List.all_eq_true] at h
      simp only [eqAscii, List.length_cons, List.zip_cons_cons, List.all_cons, List.map_cons,
        List.cons.injEq, Bool.and_eq_true, beq_iff_eq, List.all_eq_true, Nat.add_right_cancel_iff,
        ← h]
      tauto

/-- The bytes of a character outside ASCII are all at least `0x80`. -/
theorem le_of_mem_encodeUtf8 {c : Char} (hc : 0x80 ≤ c.toNat) :
    ∀ b ∈ encodeUtf8 c, 0x80 ≤ b.toNat := by
  have hv := char_valid c
  simp only [encodeUtf8]
  split_ifs <;> simp only [List.mem_cons, List.not_mem_nil, or_false] <;>
    rintro b (rfl | rfl | rfl | rfl) <;> rw [toNat_ofNat (by omega)] <;> omega

/-- Lowercasing the bytes of a text is encoding its ASCII lowercasing. -/
theorem map_asciiLowercaseByte_asBytes (s : List Char) :
    (asBytes s).map asciiLowercaseByte = asBytes (toAsciiLowercase s) := by
  induction s with
  | nil => rfl
  | cons c s ih =>
    simp only [asBytes, toAsciiLowercase, List.flatMap_cons, List.map_cons, List.map_append]
      at ih ⊢
    rw [ih]
    congr 1
    by_cases hc : c.toNat < 0x80
    · have hlow : (Char.toLower c).toNat =
          if 65 ≤ c.toNat ∧ c.toNat ≤ 90 then c.toNat + 32 else c.toNat := by
        rw [Char.toLower]
        split_ifs with h
        · exact @charOfNat_toNat (c.toNat + 32) (.inl (by omega))
        · rfl
      have hl : (Char.toLower c).toNat < 0x80 := by rw [hlow]; split_ifs <;> omega
      simp only [encodeUtf8, if_pos hc, if_pos hl, List.map_cons, List.map_nil, List.cons.injEq,
        and_true]
      apply UInt8.toNat.inj
      rw [toNat_asciiLowercaseByte, toNat_ofNat (by omega), toNat_ofNat (by omega), hlow]
    · have hlow : Char.toLower c = c := by
        unfold Char.toLower
        rw [if_neg (by omega)]
      rw [hlow]
      refine List.map_congr_left (fun b hb => ?_) |>.trans (List.map_id _)
      have := le_of_mem_encodeUtf8 (by omega) b hb
      rw [asciiLowercaseByte, if_neg (by omega), id]

/-- A line of ASCII bytes is the encoding of the text it spells. -/
theorem asBytes_map_ofNat {line : List UInt8} (h : ∀ b ∈ line, b.toNat < 0x80) :
    asBytes (line.map fun b => Char.ofNat b.toNat) = line := by
  induction line with
  | nil => rfl
  | cons b line ih =>
    have hb := h b (List.mem_cons_self _ _)
    simp only [asBytes, List.map_cons, List.flatMap_cons] at ih ⊢
    rw [ih fun x hx => h x (List.mem_cons_of_mem _ hx)]
    simp [encodeUtf8, @charOfNat_toNat b.toNat (.inl (by omega)), hb,
      ofNat_eq_of_toNat (rfl : b.toNat = b.toNat)]

/-- A line equals `true` up to ASCII case exactly when it encodes a text whose ASCII
lowercasing is `true`. -/
theorem eqAscii_true_iff (line : List UInt8) :
    eqAscii line (asBytes "true".toList) = true ↔
      ∃ s, line = asBytes s ∧ toAsciiLowercase s = "true".toList := by
  have htrue : (asBytes "true".toList).map asciiLowercaseByte = asBytes "true".toList := by
    decide
  rw [eqAscii_iff, htrue]
  constructor
  · intro h
    have hascii : ∀ b ∈ line, b.toNat < 0x80 := fun b hb => by
      have hlow : asciiLowercaseByte b ∈ asBytes "true".toList := h ▸ List.mem_map_of_mem _ hb
      have hascii_true : ∀ x ∈ asBytes "true".toList, x.toNat < 0x80 := by decide
      have hlt := hascii_true _ hlow
      rw [toNat_asciiLowercaseByte] at hlt
      split_ifs at hlt <;> omega
    refine ⟨_, (asBytes_map_ofNat hascii).symm, asBytes_injective ?_⟩
    rw [← map_asciiLowercaseByte_asBytes, asBytes_map_ofNat hascii, h]
  · rintro ⟨s, rfl, hs⟩
    rw [map_asciiLowercaseByte_asBytes, hs]

/-- ACAC acceptance: `parse_header` accepts a field exactly when it is one line holding the
UTF-8 encoding of a text whose ASCII lowercasing is `true`; no line that is not UTF-8 is
ever accepted, as the comment on `from_utf8_unchecked` argues. -/
theorem allowCredentials_parseHeader_iff (lines : List (List UInt8)) :
    AccessControlAllowCredentials.parseHeader ⟨lines⟩ = .ok ⟨⟩ ↔
      ∃ s, lines = [asBytes s] ∧ toAsciiLowercase s = "true".toList := by
  rcases lines with _ | ⟨line, _ | ⟨line₂, rest⟩⟩
  · simp [AccessControlAllowCredentials.parseHeader, Raw.one]
  · have hparse : AccessControlAllowCredentials.parseHeader ⟨[line]⟩ =
        if eqAscii line (asBytes "true".toList) then .ok ⟨⟩ else .error .header := rfl
    simp only [hparse, List.cons.injEq, and_true, ← eqAscii_true_iff]
    split_ifs with h
    · exact iff_of_true rfl h
    · exact iff_of_false (fun h' => by cases h') h
  · simp [AccessControlAllowCredentials.parseHeader, Raw.one]

end Hyperx.Analysis.WireCanonical
