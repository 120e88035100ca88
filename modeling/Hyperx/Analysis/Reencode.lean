import Hyperx.Analysis.CookieParse
import Hyperx.Analysis.WarningCodec

/-!
# Writing again what `parse_header` read

A proxy that parses a header and forwards it sends the `Display` text of what it
parsed. The round trips of `CookieCodec` and `WarningCodec` start from a value; here the
start is any field the parser accepts, and the question is whether the text written
from it reads back as the same value.

For `Cookie` it always does. Every pair `parse_header` inserts comes from one piece of a
line cut at `;`, cut again at its first `=` and trimmed on both sides, so `Display`
writes it readably (`wire_of_mem_linePairs`): a piece holds no separator
(`not_sep_of_mem_splitOnP`), `splitn(2, '=')` leaves none in the name
(`not_mem_head_splitnTwo`) and only cuts the piece into parts (`sublist_of_mem_splitnTwo`),
and `trim` leaves no whitespace at either end (`unpadded_trim`). Map insertion keeps
this for every pair of the map (`forall_mem_foldl_insert`) and keeps the names distinct,
so the parsed cookie's `Display` text parses back to it (`cookie_parseHeader_reencode`).

For `Warning` the code is the first word, the agent the second, and the text the piece
after the first `"`, which holds none (`readable_of_fromStr`). What can still go wrong is
a `"` inside the agent: `from_str` accepts it, and `Display` then writes it where the
text's opening quote is looked for (`warning_parseHeader_reencode`).
-/

set_option autoImplicit false

namespace Hyperx.Analysis.Reencode

open Hyperx.Model Hyperx.Analysis.CookieCodec Hyperx.Analysis.CookieParse

/-! ## What splitting and trimming leave in a piece -/

/-- No piece of a split text holds a separator. -/
theorem not_sep_of_mem_splitOnP {α : Type} {p : α → Bool} {s w : List α}
    (hw : w ∈ s.splitOnP p) : ∀ c ∈ w, p c = false := by
  induction s generalizing w with
  | nil => simp_all [List.splitOnP_nil]
  | cons x s ih =>
    rw [List.splitOnP_cons] at hw
    by_cases hx : p x = true
    · rw [if_pos hx] at hw
      rcases List.mem_cons.mp hw with rfl | hw
      · simp
      · exact ih hw
    · rw [if_neg hx] at hw
      obtain ⟨v, vs, hv⟩ := List.exists_cons_of_ne_nil (List.splitOnP_ne_nil p s)
      rw [hv, List.modifyHead_cons] at hw
      rcases List.mem_cons.mp hw with rfl | hw
      · simp only [List.mem_cons, forall_eq_or_imp]
        exact ⟨by simpa using hx, ih (hv ▸ List.mem_cons_self v vs)⟩
      · exact ih (hv ▸ List.mem_cons_of_mem v hw)

/-- `splitn(2, c)` always yields a first part. -/
theorem splitnTwo_ne_nil (c : Char) (s : List Char) : splitnTwo c s ≠ [] := by
  induction s with
  | nil => simp [splitnTwo]
  | cons x s ih =>
    obtain ⟨v, vs, hv⟩ := List.exists_cons_of_ne_nil ih
    unfold splitnTwo
    split <;> simp [hv]

/-- `splitn(2, c)` cuts a text into parts of it. -/
theorem sublist_of_mem_splitnTwo {c : Char} {s w : List Char} (hw : w ∈ splitnTwo c s) :
    w.Sublist s := by
  induction s generalizing w with
  | nil => simp_all [splitnTwo]
  | cons x s ih =>
    unfold splitnTwo at hw
    split at hw
    · simp only [List.mem_cons, List.mem_singleton, List.not_mem_nil, or_false] at hw
      rcases hw with rfl | rfl
      · exact List.nil_sublist _
      · exact List.sublist_cons_self _ _
    · obtain ⟨v, vs, hv⟩ := List.exists_cons_of_ne_nil (splitnTwo_ne_nil c s)
      rw [hv, List.modifyHead_cons] at hw
      rcases List.mem_cons.mp hw with rfl | hw
      · exact (ih (hv ▸ List.mem_cons_self v vs)).cons_cons x
      · exact (ih (hv ▸ List.mem_cons_of_mem v hw)).cons x

/-- The first part `splitn(2, c)` gives holds no `c`. -/
theorem not_mem_head_splitnTwo {c : Char} {s w : List Char}
    (hw : (splitnTwo c s).head? = some w) : c ∉ w := by
  induction s generalizing w with
  | nil => simp_all [splitnTwo]
  | cons x s ih =>
    unfold splitnTwo at hw
    split at hw
    · simp_all
    · obtain ⟨v, vs, hv⟩ := List.exists_cons_of_ne_nil (splitnTwo_ne_nil c s)
      rw [hv, List.modifyHead_cons, List.head?_cons, Option.some.injEq] at hw
      subst hw
      simp only [List.mem_cons, not_or]
      exact ⟨Ne.symm ‹_›, ih (by rw [hv]; rfl)⟩

/-- `trim` only drops characters. -/
theorem trim_sublist (s : List Char) : (trim s).Sublist s := by
  rw [trim]
  exact (List.reverse_sublist.mpr (List.dropWhile_suffix _).sublist).trans
    (by rw [List.reverse_reverse]; exact (List.dropWhile_suffix _).sublist)

/-- `trim` leaves no whitespace at either end. -/
theorem unpadded_trim (s : List Char) : Unpadded (trim s) := by
  have hu := List.head?_dropWhile_not isWhitespace (s.dropWhile isWhitespace).reverse
  refine ⟨fun c hc => ?_, fun c hc => ?_⟩
  · rw [trim, List.head?_reverse] at hc
    have hne : (s.dropWhile isWhitespace).reverse.dropWhile isWhitespace ≠ [] := by
      rintro h
      simp [h] at hc
    rw [List.getLast?_eq_getLast _ hne, Option.mem_def, Option.some.injEq] at hc
    rw [← hc, (List.dropWhile_suffix _).getLast hne, List.getLast_reverse]
    exact List.head_dropWhile_not _ _ _
  · rw [trim, List.getLast?_reverse, Option.mem_def] at hc
    rw [hc] at hu
    exact hu

/-! ## `Cookie` -/

/-- The pair a piece without `;` gives is one `Display` writes readably. -/
theorem wire_of_cookiePair {piece : List Char} (hpiece : ';' ∉ piece)
    {p : List Char × List Char} (hp : cookiePair piece = some p) : Wire p := by
  unfold cookiePair at hp
  dsimp only at hp
  split at hp
  · rename_i key val hkey hval
    cases hp
    have hk : key.Sublist piece := sublist_of_mem_splitnTwo (List.mem_of_mem_head? hkey)
    have hv : val.Sublist piece :=
      sublist_of_mem_splitnTwo (List.mem_of_mem_tail (List.mem_of_mem_head? hval))
    exact ⟨fun h => not_mem_head_splitnTwo hkey ((trim_sublist key).subset h),
      fun h => hpiece (hk.subset ((trim_sublist key).subset h)), unpadded_trim key,
      fun h => hpiece (hv.subset ((trim_sublist val).subset h)), unpadded_trim val⟩
  · cases hp

/-- Every pair of a line is one `Display` writes readably. -/
theorem wire_of_mem_linePairs {s : List Char} {p : List Char × List Char}
    (hp : p ∈ linePairs s) : Wire p := by
  obtain ⟨piece, hpiece, hp⟩ := List.mem_filterMap.mp hp
  exact wire_of_cookiePair (fun h => by simpa using not_sep_of_mem_splitOnP hpiece ';' h) hp

section Insert

variable {K V : Type} [DecidableEq K]

/-- An entry after map insertion was there before or is the inserted pair. -/
theorem mem_insertEntry {key : K} {value : V} {vec : List (K × V)} {p : K × V}
    (hp : p ∈ VecMap.insertEntry key value vec) : p ∈ vec ∨ p = (key, value) := by
  induction vec with
  | nil => simpa [VecMap.insertEntry] using hp
  | cons e vec ih =>
    unfold VecMap.insertEntry at hp
    split at hp
    · rcases List.mem_cons.mp hp with rfl | hp
      · exact .inr rfl
      · exact .inl (List.mem_cons_of_mem e hp)
    · rcases List.mem_cons.mp hp with rfl | hp
      · exact .inl (List.mem_cons_self _ _)
      · exact (ih hp).imp_left (List.mem_cons_of_mem e)

/-- A property of every pair of a map and of every inserted pair holds of every pair
after the insertions. -/
theorem forall_mem_foldl_insert (P : K × V → Prop) (pairs : List (K × V)) (m : VecMap K V)
    (hm : ∀ p ∈ m.vec, P p) (hpairs : ∀ p ∈ pairs, P p) :
    ∀ p ∈ (pairs.foldl (fun m p => m.insert p.1 p.2) m).vec, P p := by
  induction pairs generalizing m with
  | nil => exact hm
  | cons q pairs ih =>
    refine ih _ (fun p hp => ?_) (fun p hp => hpairs p (List.mem_cons_of_mem q hp))
    rcases mem_insertEntry hp with hp | rfl
    · exact hm p hp
    · exact hpairs q (List.mem_cons_self q pairs)

end Insert

/-- What a parsed cookie is: the map insertion of the pairs of all lines, and not empty. -/
theorem cookie_parseHeader_eq_ok {lines : List (List UInt8)} {c : Cookie}
    (h : Cookie.parseHeader ⟨lines⟩ = .ok c) :
    ∃ strs, lines.mapM fromUtf8 = some strs ∧
      c.map = (strs.flatMap linePairs).foldl (fun m p => m.insert p.1 p.2) ⟨[]⟩ ∧
      c.iter ≠ [] := by
  rw [parseHeader_eq_fold] at h
  cases hm : lines.mapM fromUtf8 with
  | none =>
    rw [hm] at h
    cases h
  | some strs =>
    rw [hm] at h
    dsimp only at h
    split_ifs at h with hlen
    cases h
    exact ⟨strs, rfl, rfl, fun hnil => hlen (List.length_eq_zero.mpr hnil)⟩

/-- Cookie re-encoding: whatever raw lines `parse_header` accepts, the `Display` text of
the cookie it returns, as one raw line, parses back to the same cookie. -/
theorem cookie_parseHeader_reencode (lines : List (List UInt8)) (c : Cookie)
    (h : Cookie.parseHeader ⟨lines⟩ = .ok c) :
    Cookie.parseHeader ⟨[asBytes c.fmt]⟩ = .ok c := by
  obtain ⟨strs, -, hmap, hne⟩ := cookie_parseHeader_eq_ok h
  have hwire : ∀ p ∈ c.iter, Wire p := by
    rw [Cookie.iter, VecMap.iter, hmap]
    refine forall_mem_foldl_insert Wire _ ⟨[]⟩ (fun _ h => absurd h (List.not_mem_nil _)) ?_
    intro p hp
    obtain ⟨s, -, hs⟩ := List.mem_flatMap.mp hp
    exact wire_of_mem_linePairs hs
  have hnames : (c.iter.map Prod.fst).Nodup := by
    rw [Cookie.iter, VecMap.iter, hmap]
    exact nodup_foldl_insert _ _ List.nodup_nil
  exact parseHeader_fmt_of_nodup c hne hwire hnames

/-- Two lines with padding, a piece that is no pair, a value holding `=`, and a name set
twice: the cookie `a=4; b=2=3`. -/
theorem cookie_parseHeader_reencode_two_lines :
    Cookie.parseHeader ⟨[asBytes " a = 1;b=2=3; junk".toList, asBytes "a=4".toList]⟩ =
        .ok ⟨⟨[("a".toList, "4".toList), ("b".toList, "2=3".toList)]⟩⟩ ∧
      Cookie.parseHeader ⟨[asBytes (Cookie.fmt
        ⟨⟨[("a".toList, "4".toList), ("b".toList, "2=3".toList)]⟩⟩)]⟩ =
        .ok ⟨⟨[("a".toList, "4".toList), ("b".toList, "2=3".toList)]⟩⟩ :=
  have h : Cookie.parseHeader ⟨[asBytes " a = 1;b=2=3; junk".toList, asBytes "a=4".toList]⟩ =
      .ok ⟨⟨[("a".toList, "4".toList), ("b".toList, "2=3".toList)]⟩⟩ := rfl
  ⟨h, cookie_parseHeader_reencode _ _ h⟩

/-! ## `Warning` -/

section Warning

open Hyperx.Analysis.WarningCodec

variable {D : Type} (httpDate : HttpDateCodec D)

/-- `from_one_raw_str` returns only what the type's `from_str` returned for some text. -/
theorem fromOneRawStr_eq_ok {T : Type} {fromStr : List Char → Except Error T} {raw : Raw}
    {t : T} (h : fromOneRawStr fromStr raw = .ok t) : ∃ s, fromStr s = .ok t := by
  unfold fromOneRawStr fromRawStr at h
  split at h
  · split at h
    · cases h
    · split at h
      · cases h
      · split at h
        · cases h
          exact ⟨_, ‹_›⟩
        · cases h
  · cases h

/-- The agent of a warning `from_str` returns is its second word, and the text the piece
after its first `"`. -/
theorem fromStr_eq_ok {s : List Char} {w : Warning D} (h : Warning.fromStr httpDate s = .ok w) :
    (splitWhitespace s)[1]? = some w.agent ∧ ((s.splitOn '"').drop 1)[0]? = some w.text := by
  unfold Warning.fromStr at h
  dsimp only at h
  split at h
  · split at h
    · split at h
      · split at h
        · cases h
          exact ⟨‹_›, ‹_›⟩
        · cases h
      · cases h
    · cases h
  · cases h

/-- A warning `from_str` returns is readable, but for a `"` in its agent. -/
theorem readable_of_fromStr {s : List Char} {w : Warning D}
    (h : Warning.fromStr httpDate s = .ok w) (hagent : '"' ∉ w.agent) : Readable w := by
  obtain ⟨ha, ht⟩ := fromStr_eq_ok httpDate h
  obtain ⟨hsplit, hne⟩ := List.mem_filter.mp (List.getElem?_mem ha)
  refine ⟨by simpa using hne, not_sep_of_mem_splitOnP hsplit, hagent, fun hq => ?_⟩
  simpa using not_sep_of_mem_splitOnP (List.mem_of_mem_drop (List.getElem?_mem ht)) '"' hq

/-- Warning re-encoding: for every `HttpDate` whose `FromStr` inverts its `Display`, a
warning that `parse_header` returns for any raw field, and whose agent holds no `"`,
reads back from its `Display` text, through `from_str` and through `parse_header` of
the one raw line holding it. -/
theorem warning_parseHeader_reencode (hdate : LawfulDate httpDate) (lines : List (List UInt8))
    (w : Warning D) (h : Warning.parseHeader httpDate ⟨lines⟩ = .ok w)
    (hagent : '"' ∉ w.agent) :
    Warning.fromStr httpDate (Warning.fmt httpDate w) = .ok w ∧
      Warning.parseHeader httpDate ⟨[asBytes (Warning.fmt httpDate w)]⟩ = .ok w := by
  obtain ⟨s, hs⟩ := fromOneRawStr_eq_ok h
  have hfmt := fromStr_fmt httpDate hdate w (readable_of_fromStr httpDate hs hagent)
  exact ⟨hfmt, fromOneRawStr_asBytes _ (fmt_unpadded httpDate w).1 (fmt_unpadded httpDate w).2
    hfmt⟩

end Warning

/-- A padded line with blanks between its fields is written again in the form of the
source's tests. -/
theorem warning_parseHeader_reencode_padded :
    WarningCodec.LawfulDate WarningCodec.testDate ∧
    Warning.parseHeader WarningCodec.testDate
        ⟨[asBytes "  112   -  \"network down\"  \"Tue, 15 Nov 1994 08:12:31 GMT\" ".toList]⟩ =
      .ok ⟨112, "-".toList, "network down".toList, some ()⟩ ∧
    '"' ∉ "-".toList ∧
    (Warning.fromStr WarningCodec.testDate (Warning.fmt WarningCodec.testDate
        ⟨112, "-".toList, "network down".toList, some ()⟩) =
      .ok ⟨112, "-".toList, "network down".toList, some ()⟩ ∧
    Warning.parseHeader WarningCodec.testDate ⟨[asBytes (Warning.fmt WarningCodec.testDate
        ⟨112, "-".toList, "network down".toList, some ()⟩)]⟩ =
      .ok ⟨112, "-".toList, "network down".toList, some ()⟩) :=
  have hdate : WarningCodec.LawfulDate WarningCodec.testDate :=
    ⟨fun () => by decide, fun () => by decide⟩
  have h : Warning.parseHeader WarningCodec.testDate
      ⟨[asBytes "  112   -  \"network down\"  \"Tue, 15 Nov 1994 08:12:31 GMT\" ".toList]⟩ =
      .ok ⟨112, "-".toList, "network down".toList, some ()⟩ := rfl
  ⟨hdate, h, by decide, warning_parseHeader_reencode _ hdate _ _ h (by decide)⟩

/-- A `"` in the agent is not written back: `299 a"b  c"` reads the text `b  c`, and its
`Display` text `299 a"b "b  c"` the text `b `. -/
example :
    (Warning.fromStr (⟨fun _ => [], fun _ => none⟩ : HttpDateCodec Unit)
        "299 a\"b  c\"".toList).map Warning.text = .ok "b  c".toList ∧
    (Warning.fromStr (⟨fun _ => [], fun _ => none⟩ : HttpDateCodec Unit)
        "299 a\"b \"b  c\"".toList).map Warning.text = .ok "b ".toList :=
  ⟨rfl, rfl⟩

end Hyperx.Analysis.Reencode
