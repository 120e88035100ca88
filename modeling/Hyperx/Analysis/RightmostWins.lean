import Hyperx.Model.ReferrerPolicy

/-!
# Rightmost wins in `Referrer-Policy`

`ReferrerPolicy::parse_header` scans the token list from its end (`parseHeader_scan`).
Read as a statement about positions (`findSome?_reverse_eq_some_iff`), the scan returns
the policy of the last recognised token, and fails exactly when no token is recognised
(`referrerPolicy_rightmost_wins`). The notion of a recognised token, a token
whose ASCII lowercase is one of a policy's `names`, is what the arms of the source's
`match` accept (`ofSlice_eq_some_iff`). The list itself comes from
`parsing::from_comma_delimited`, which is not among the sources: the results hold for
every list it may return.
-/

set_option autoImplicit false

namespace Hyperx.Analysis.RightmostWins

open Hyperx.Model Hyperx.Model.ReferrerPolicy

/-- The names of each policy, the legacy aliases `never`, `default` and `always`
included. -/
def names : ReferrerPolicy → List (List Char)
  | .noReferrer => ["no-referrer".toList, "never".toList]
  | .noReferrerWhenDowngrade => ["no-referrer-when-downgrade".toList, "default".toList]
  | .sameOrigin => ["same-origin".toList]
  | .origin => ["origin".toList]
  | .originWhenCrossOrigin => ["origin-when-cross-origin".toList]
  | .unsafeUrl => ["unsafe-url".toList, "always".toList]
  | .strictOrigin => ["strict-origin".toList]
  | .strictOriginWhenCrossOrigin => ["strict-origin-when-cross-origin".toList]

/-- The arms of the source's `match` accept exactly the names of each policy. -/
theorem ofSlice_eq_some_iff (s : List Char) (p : ReferrerPolicy) :
    ofSlice s = some p ↔ s ∈ names p := by
  constructor
  · intro h
    unfold ofSlice at h
    iterate 8
      obtain ⟨hs, ⟨⟩⟩ | ⟨-, h⟩ := ite_eq_iff.mp h
      · simpa only [names, List.mem_cons, List.not_mem_nil, or_false] using hs
    cases h
  · intro h
    cases p <;> simp only [names, List.mem_cons, List.mem_singleton, List.not_mem_nil,
      or_false] at h <;> rcases h with rfl | rfl <;> decide

/-- A token no arm accepts is a name of no policy. -/
theorem ofSlice_eq_none_iff (s : List Char) : ofSlice s = none ↔ ∀ p, s ∉ names p := by
  simp only [← ofSlice_eq_some_iff, Option.eq_none_iff_forall_not_mem, Option.mem_def]

/-- Scanning a list from its end finds `b` exactly at a position whose element gives
`b` and after which every element gives nothing. -/
theorem findSome?_reverse_eq_some_iff {α β : Type} (f : α → Option β) (l : List α) (b : β) :
    l.reverse.findSome? f = some b ↔
      ∃ i, ∃ h : i < l.length, f l[i] = some b ∧
        ∀ j (hj : j < l.length), i < j → f l[j] = none := by
  rw [List.findSome?_eq_some_iff]
  constructor
  · rintro ⟨l₁, a, l₂, hl, ha, hnone⟩
    have hl' : l = l₂.reverse ++ a :: l₁.reverse := by
      simpa using congrArg List.reverse hl
    subst hl'
    refine ⟨l₂.length, by simp, by simpa [List.getElem_append_right] using ha, ?_⟩
    intro j hj hij
    apply hnone
    have hlen : l₂.reverse.length ≤ j := by rw [List.length_reverse]; omega
    rw [List.getElem_append_right hlen, List.getElem_cons,
      dif_neg (by rw [List.length_reverse]; omega)]
    exact List.mem_reverse.mp (List.getElem_mem _)
  · rintro ⟨i, hi, hb, hafter⟩
    refine ⟨(l.drop (i + 1)).reverse, l[i], (l.take i).reverse, ?_, hb, ?_⟩
    · conv_lhs => rw [← List.take_append_drop i l, List.drop_eq_getElem_cons hi]
      simp
    · intro x hx
      obtain ⟨k, hk, rfl⟩ := List.mem_drop_iff_getElem.mp (List.mem_reverse.mp hx)
      exact hafter _ _ (by omega)

/-- `parse_header` is the scan from the end of the list `from_comma_delimited` returns:
the policy the scan finds, or `Error::Header` when it finds none. -/
theorem parseHeader_scan {fromCommaDelimited : Raw → Except Error (List (List Char))}
    {raw : Raw} {ts : List (List Char)} (hts : fromCommaDelimited raw = .ok ts) :
    (∀ p, parseHeader fromCommaDelimited raw = .ok p ↔
      (ts.reverse.findSome? fun h => ofSlice (toAsciiLowercase h)) = some p) ∧
    (parseHeader fromCommaDelimited raw = .error .header ↔
      (ts.reverse.findSome? fun h => ofSlice (toAsciiLowercase h)) = none) := by
  unfold parseHeader
  rw [hts]
  dsimp only
  cases ts.reverse.findSome? fun h => ofSlice (toAsciiLowercase h) <;> simp

/-- Referrer-Policy rightmost wins: for every list `ts` that `from_comma_delimited`
returns, `parse_header` returns `p` exactly when some token, lowercased, is a name of
`p` and no later token, lowercased, is a name of any policy; it fails with
`Error::Header` exactly when no token, lowercased, is a name of a policy. -/
theorem referrerPolicy_rightmost_wins
    (fromCommaDelimited : Raw → Except Error (List (List Char))) (raw : Raw)
    (ts : List (List Char)) (hts : fromCommaDelimited raw = .ok ts) :
    (∀ p, parseHeader fromCommaDelimited raw = .ok p ↔
      ∃ i, ∃ h : i < ts.length, toAsciiLowercase ts[i] ∈ names p ∧
        ∀ j (hj : j < ts.length), i < j → ∀ q, toAsciiLowercase ts[j] ∉ names q) ∧
    (parseHeader fromCommaDelimited raw = .error .header ↔
      ∀ t ∈ ts, ∀ q, toAsciiLowercase t ∉ names q) := by
  refine ⟨fun p => ?_, ?_⟩
  · rw [(parseHeader_scan hts).1, findSome?_reverse_eq_some_iff]
    simp only [ofSlice_eq_some_iff, ofSlice_eq_none_iff]
  · rw [(parseHeader_scan hts).2, List.findSome?_eq_none_iff]
    simp only [List.mem_reverse, ofSlice_eq_none_iff]

/-- The source's test_rightmost_header: of "same-origin, origin, foobar" the rightmost
recognised token, origin, wins. -/
theorem referrerPolicy_rightmost_wins_origin :
    parseHeader (fun _ => .ok ["same-origin".toList, "origin".toList, "foobar".toList])
      ⟨["same-origin, origin, foobar".toList.map (UInt8.ofNat ·.toNat)]⟩ = .ok .origin :=
  ((referrerPolicy_rightmost_wins _ _ _ rfl).1 .origin).2
    ⟨1, by decide, by decide, fun j hj hij q => by
      obtain rfl : j = 2 := by simp only [List.length_cons, List.length_nil] at hj; omega
      simp only [List.getElem_cons_succ, List.getElem_cons_zero]
      cases q <;> decide⟩

end Hyperx.Analysis.RightmostWins
