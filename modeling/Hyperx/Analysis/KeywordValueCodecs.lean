import Hyperx.Model.AccessControlAllowOrigin
import Hyperx.Model.AcceptRanges

/-!
# Headers whose value is a keyword or a free text

`Access-Control-Allow-Origin` writes its keywords `*` and `null` and an origin's text
alike, and its parser tries the keywords on the raw bytes first. Since distinct texts
have distinct bytes (`asBytes_injective`), every value but the origins `*` and `null`
reads back from its `Display` text (`allowOrigin_fmt_parseHeader_roundtrip`); those two
read back as the keywords (`allowOrigin_value_keyword`).

`RangeUnit` has the same shape with the keywords `bytes` and `none`, and a parser that
accepts every text (`rangeUnit_fromStr_fmt`). A unit reads back from its `Display` text
exactly when it is not an unregistered unit spelt as a keyword
(`rangeUnit_fmt_fromStr_roundtrip`); those two read back as the keywords
(`rangeUnit_unregistered_keyword`).
-/

set_option autoImplicit false

namespace Hyperx.Analysis.KeywordValueCodecs

open Hyperx.Model

/-- Access-Control-Allow-Origin round trip: every value other than the origins `*` and
`null` parses back from the single line of its `Display` text. -/
theorem allowOrigin_fmt_parseHeader_roundtrip (v : AccessControlAllowOrigin)
    (hv : v ≠ .value "*".toList ∧ v ≠ .value "null".toList) :
    AccessControlAllowOrigin.parseHeader ⟨[asBytes v.fmt]⟩ = .ok v := by
  cases v with
  | any => rfl
  | null => rfl
  | value url =>
    have h₁ : asBytes url ≠ asBytes "*".toList := fun h => hv.1 (by rw [asBytes_injective h])
    have h₂ : asBytes url ≠ asBytes "null".toList :=
      fun h => hv.2 (by rw [asBytes_injective h])
    simp only [AccessControlAllowOrigin.parseHeader, Raw.one, AccessControlAllowOrigin.fmt]
    rw [if_neg h₁, if_neg h₂, fromUtf8_asBytes]

/-- An origin that is a URL. -/
theorem allowOrigin_fmt_parseHeader_roundtrip_url :
    (AccessControlAllowOrigin.value "http://hyper.rs".toList ≠ .value "*".toList ∧
      AccessControlAllowOrigin.value "http://hyper.rs".toList ≠ .value "null".toList) ∧
    AccessControlAllowOrigin.parseHeader
        ⟨[asBytes (AccessControlAllowOrigin.value "http://hyper.rs".toList).fmt]⟩ =
      .ok (.value "http://hyper.rs".toList) :=
  ⟨by decide, allowOrigin_fmt_parseHeader_roundtrip _ (by decide)⟩

/-- The origins `*` and `null` are written as the keywords and read back as them. -/
theorem allowOrigin_value_keyword :
    AccessControlAllowOrigin.parseHeader
        ⟨[asBytes (AccessControlAllowOrigin.value "*".toList).fmt]⟩ = .ok .any ∧
    AccessControlAllowOrigin.parseHeader
        ⟨[asBytes (AccessControlAllowOrigin.value "null".toList).fmt]⟩ = .ok .null :=
  ⟨rfl, rfl⟩

/-! ## `RangeUnit` -/

/-- `from_str` accepts every text, and `Display` writes back the text it read. -/
theorem rangeUnit_fromStr_fmt (s : List Char) :
    (RangeUnit.fromStr s).map RangeUnit.fmt = .ok s := by
  unfold RangeUnit.fromStr
  split_ifs with h₁ h₂
  · subst h₁; rfl
  · subst h₂; rfl
  · rfl

/-- RangeUnit round trip: a unit reads back from its `Display` text exactly when it is
not an unregistered unit spelt as a keyword, `bytes` or `none`. -/
theorem rangeUnit_fmt_fromStr_roundtrip (u : RangeUnit) :
    RangeUnit.fromStr u.fmt = .ok u ↔
      u ≠ .unregistered "bytes".toList ∧ u ≠ .unregistered "none".toList := by
  constructor
  · intro h
    constructor <;> rintro rfl <;> cases h
  · rintro ⟨hb, hn⟩
    cases u with
    | bytes => rfl
    | none => rfl
    | unregistered s =>
      have h₁ : s ≠ "bytes".toList := fun h => hb (h ▸ rfl)
      have h₂ : s ≠ "none".toList := fun h => hn (h ▸ rfl)
      rw [RangeUnit.fmt, RangeUnit.fromStr, if_neg h₁, if_neg h₂]

/-- The units `bytes` and `none` spelt as unregistered units read back as the
keywords. -/
theorem rangeUnit_unregistered_keyword :
    RangeUnit.fromStr (RangeUnit.unregistered "bytes".toList).fmt = .ok .bytes ∧
    RangeUnit.fromStr (RangeUnit.unregistered "none".toList).fmt = .ok RangeUnit.none :=
  ⟨rfl, rfl⟩

end Hyperx.Analysis.KeywordValueCodecs
