import Hyperx.Model.Warning

/-!
# `Warning` on the wire

`Warning::from_str` (warning.rs:125-159) reads its `Display` text (warning.rs:112-123)
in two passes. The first cuts the text at whitespace: the padded code and the agent are
its first two words when the agent is a non-empty word (`splitWhitespace_fmt`), and
`u16::from_str` reads back every padded code (`parseU16_fmtPad3`). The second cuts the
text at `"`: when neither the agent, the text nor the date's `Display` holds one, the
pieces after the first are the text, then a blank and the date when there is one
(`splitOn_fmt`). So a warning comes back whole, through `from_str` and through
`parse_header`, whenever its date reads back from its `Display`
(`warning_fmt_fromStr_roundtrip`).

The type's own grammar (warning.rs:16-25) makes the text a `quoted-string`, in which a
`"` is written as the quoted pair `\"`. `Display` writes the text bare and `from_str`
cuts at every `"`, so a text that holds one comes back cut at it, and a line that
follows the grammar with a quoted pair is misread as well
(`warning_fromStr_quote_in_text`).
-/

set_option autoImplicit false

namespace Hyperx.Analysis.WarningCodec

open Hyperx.Model Hyperx.Model.Warning

variable {D : Type}

/-- What the round trip asks of `HttpDate`: `FromStr` inverts `Display`, and `Display`
writes no `"` (an IMF-fixdate has none). -/
structure LawfulDate (httpDate : HttpDateCodec D) : Prop where
  parse_fmt : ∀ d, httpDate.parse (httpDate.fmt d) = some d
  quote_free : ∀ d, '"' ∉ httpDate.fmt d

/-- A warning whose `Display` text `from_str` can cut up: a non-empty agent with no
whitespace and no `"`, and a text with no `"`. -/
def Readable (w : Warning D) : Prop :=
  w.agent ≠ [] ∧ (∀ c ∈ w.agent, isWhitespace c = false) ∧ '"' ∉ w.agent ∧ '"' ∉ w.text

instance (w : Warning D) : Decidable (Readable w) :=
  inferInstanceAs (Decidable (_ ∧ _))

/-- The padded code is a non-empty word with no `"`. -/
theorem fmtPad3_word (n : Nat) :
    fmtPad3 n ≠ [] ∧ (∀ c ∈ fmtPad3 n, isWhitespace c = false) ∧ '"' ∉ fmtPad3 n := by
  obtain ⟨ds, hpad, hlt, hne, -⟩ := fmtPad3_spec n
  have hplain : ∀ d, d < 10 →
      isWhitespace (Nat.digitChar d) = false ∧ Nat.digitChar d ≠ '"' := by
    decide
  rw [hpad]
  refine ⟨by simpa using hne, ?_, ?_⟩
  · simp only [List.mem_map]
    rintro _ ⟨d, hd, rfl⟩
    exact (hplain d (hlt d hd)).1
  · simp only [List.mem_map, not_exists, not_and]
    exact fun d hd => (hplain d (hlt d hd)).2

section

variable (httpDate : HttpDateCodec D)

/-- The first two words of the `Display` text are the padded code and the agent. -/
theorem splitWhitespace_fmt (w : Warning D) (hw : Readable w) :
    ∃ rest, splitWhitespace (fmt httpDate w) = fmtPad3 w.code.toNat :: w.agent :: rest := by
  obtain ⟨hne, hws, -, -⟩ := hw
  obtain ⟨pne, pws, -⟩ := fmtPad3_word w.code.toNat
  have hsp : isWhitespace ' ' = true := by decide
  unfold fmt
  split <;> simp only [List.append_assoc, List.cons_append] <;>
    exact ⟨_, by rw [splitWhitespace_append_cons pne pws hsp,
      splitWhitespace_append_cons hne hws hsp]⟩

/-- The pieces of the `Display` text between `"`s. -/
theorem splitOn_fmt (hdate : ∀ d, '"' ∉ httpDate.fmt d) (w : Warning D) (hw : Readable w) :
    (fmt httpDate w).splitOn '"' = (fmtPad3 w.code.toNat ++ ' ' :: w.agent ++ [' ']) ::
      w.text :: (match w.date with
        | some date => [[' '], httpDate.fmt date, []]
        | none => [[]]) := by
  obtain ⟨-, -, hagent, htext⟩ := hw
  have hpre : '"' ∉ fmtPad3 w.code.toNat ++ ' ' :: w.agent ++ [' '] := by
    simp [(fmtPad3_word _).2.2, hagent]
  obtain ⟨code, agent, text, _ | date⟩ := w
  · have h : fmt httpDate ⟨code, agent, text, none⟩ =
        (fmtPad3 code.toNat ++ ' ' :: agent ++ [' ']) ++ '"' :: (text ++ '"' :: []) := by
      simp [fmt]
    rw [h, splitOn_append_cons, splitOn_append_cons, splitOn_of_not_mem hpre,
      splitOn_of_not_mem htext]
    rfl
  · have h : fmt httpDate ⟨code, agent, text, some date⟩ =
        (fmtPad3 code.toNat ++ ' ' :: agent ++ [' ']) ++ '"' :: (text ++ '"' ::
          ([' '] ++ '"' :: (httpDate.fmt date ++ '"' :: []))) := by
      simp [fmt]
    rw [h, splitOn_append_cons, splitOn_append_cons, splitOn_append_cons, splitOn_append_cons,
      splitOn_of_not_mem hpre, splitOn_of_not_mem htext, splitOn_of_not_mem (by decide),
      splitOn_of_not_mem (hdate date)]
    rfl

/-- `from_str` reads back the `Display` text of a readable warning. -/
theorem fromStr_fmt (hdate : LawfulDate httpDate) (w : Warning D) (hw : Readable w) :
    fromStr httpDate (fmt httpDate w) = .ok w := by
  obtain ⟨rest, hws⟩ := splitWhitespace_fmt httpDate w hw
  have hq := splitOn_fmt httpDate hdate.quote_free w hw
  obtain ⟨code, agent, text, _ | date⟩ := w <;>
    simp only [fromStr, hws, hq, parseU16_fmtPad3, hdate.parse_fmt, List.getElem?_cons_zero,
      List.getElem?_cons_succ, List.drop_succ_cons, List.drop_zero] <;> rfl

/-- The `Display` text is a non-empty line that starts with a digit and ends with `"`. -/
theorem fmt_unpadded (w : Warning D) : fmt httpDate w ≠ [] ∧ Unpadded (fmt httpDate w) := by
  obtain ⟨pne, pws, -⟩ := fmtPad3_word w.code.toNat
  obtain ⟨c, cs, hcs⟩ := List.exists_cons_of_ne_nil pne
  have hc : isWhitespace c = false := pws c (hcs ▸ List.mem_cons_self c cs)
  unfold fmt Unpadded
  split <;> simp only [List.getLast?_concat] <;> simp [hcs, hc] <;> decide

/-- Warning round trip: for every `HttpDate` whose `FromStr` inverts its `Display`, and
every warning with a non-empty agent free of whitespace and `"` and a text free of
`"`, `from_str` of the `Display` text gives the warning back, and so does
`parse_header` of the one raw line holding it. -/
theorem warning_fmt_fromStr_roundtrip (hdate : LawfulDate httpDate) (w : Warning D)
    (hw : Readable w) :
    fromStr httpDate (fmt httpDate w) = .ok w ∧
      parseHeader httpDate ⟨[asBytes (fmt httpDate w)]⟩ = .ok w :=
  ⟨fromStr_fmt httpDate hdate w hw, fromOneRawStr_asBytes _ (fmt_unpadded httpDate w).1
    (fmt_unpadded httpDate w).2 (fromStr_fmt httpDate hdate w hw)⟩

end

/-- An `HttpDate` of one date, written as the date of the source's tests. -/
def testDate : HttpDateCodec Unit :=
  ⟨fun _ => "Tue, 15 Nov 1994 08:12:31 GMT".toList,
    fun s => if s = "Tue, 15 Nov 1994 08:12:31 GMT".toList then some () else none⟩

/-- The source's third test value, dated. -/
theorem warning_fmt_fromStr_roundtrip_dated :
    LawfulDate testDate ∧
    Readable (⟨299, "api.hyper.rs:8080".toList,
      "Deprecated API : use newapi.hyper.rs instead.".toList, some ()⟩ : Warning Unit) ∧
    (fromStr testDate (fmt testDate ⟨299, "api.hyper.rs:8080".toList,
        "Deprecated API : use newapi.hyper.rs instead.".toList, some ()⟩) =
      .ok ⟨299, "api.hyper.rs:8080".toList,
        "Deprecated API : use newapi.hyper.rs instead.".toList, some ()⟩ ∧
    parseHeader testDate ⟨[asBytes (fmt testDate ⟨299, "api.hyper.rs:8080".toList,
        "Deprecated API : use newapi.hyper.rs instead.".toList, some ()⟩)]⟩ =
      .ok ⟨299, "api.hyper.rs:8080".toList,
        "Deprecated API : use newapi.hyper.rs instead.".toList, some ()⟩) :=
  have hdate : LawfulDate testDate := ⟨fun () => by decide, fun () => by decide⟩
  ⟨hdate, by decide, warning_fmt_fromStr_roundtrip _ hdate _ (by decide)⟩

/-- A text that holds a `"` is cut at it: `from_str` reads the `Display` text
`299 - "say "hi""` with the text `say `, and the `quoted-string` of the grammar,
`299 - "say \"hi\""`, with the text `say \`. -/
theorem warning_fromStr_quote_in_text :
    (fromStr testDate (fmt testDate ⟨299, "-".toList, "say \"hi\"".toList, none⟩)).map
        Warning.text = .ok "say ".toList ∧
      (fromStr testDate "299 - \"say \\\"hi\\\"\"".toList).map Warning.text =
        .ok "say \\".toList := by
  have hfmt : fmt testDate ⟨299, "-".toList, "say \"hi\"".toList, none⟩ =
      "299 - \"say \"hi\"\"".toList := by
    simp only [fmt]; decide
  rw [hfmt]
  exact ⟨rfl, rfl⟩

end Hyperx.Analysis.WarningCodec
