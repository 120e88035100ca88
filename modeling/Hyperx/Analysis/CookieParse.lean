import Hyperx.Analysis.CookieCodec
import Hyperx.Analysis.CookieMutation

/-!
# What `Cookie::parse_header` returns, for every field

`parse_header` (cookie.rs:130-151) decodes each raw line with `from_utf8(..)?`, cuts it at
`;`, and for each piece that `splitn(2, '=')` cuts into a key and a value inserts the
trimmed pair into a `VecMap` by map insertion; a field that gives no pair is an error.

Read piece by piece, a line gives a list of pairs (`linePairs`), and the inner loop is map
insertion of those pairs (`insertCookiesStr_eq`), so the outer loop either stops at the
first line that is not UTF-8 or inserts the pairs of all lines in order
(`parseLines_eq`). Map insertion keeps the names pairwise distinct (`nodup_insert`), and
after a sequence of insertions a name reads the value of its last pair
(`get_foldl_insert`). Together these give every outcome of `parse_header`
(`cookie_parseHeader_outcome`).
-/

set_option autoImplicit false

namespace Hyperx.Analysis.CookieParse

open Hyperx.Model Hyperx.Model.Cookie Hyperx.Analysis.CookieCodec
open Hyperx.Analysis.CookieMutation

/-! ## Map insertion, one pair after another -/

section Insert

variable {K V : Type} [DecidableEq K]

/-- Map insertion keeps the keys pairwise distinct. -/
theorem nodup_insert {m : VecMap K V} (h : (m.vec.map Prod.fst).Nodup) (k : K) (v : V) :
    ((m.insert k v).vec.map Prod.fst).Nodup := by
  rw [VecMap.insert, VecMap.keys_insertEntry]
  split
  · exact h
  · exact List.nodup_append.mpr
      ⟨h, List.nodup_singleton k, List.disjoint_singleton.mpr ‹_›⟩

/-- A sequence of map insertions keeps the keys pairwise distinct. -/
theorem nodup_foldl_insert (pairs : List (K × V)) (m : VecMap K V)
    (h : (m.vec.map Prod.fst).Nodup) :
    ((pairs.foldl (fun m p => m.insert p.1 p.2) m).vec.map Prod.fst).Nodup := by
  induction pairs generalizing m with
  | nil => exact h
  | cons p pairs ih => exact ih (m.insert p.1 p.2) (nodup_insert h p.1 p.2)

/-- After a sequence of insertions a key reads the value of its last pair, or what it read
before when no pair has it. -/
theorem get_foldl_insert (pairs : List (K × V)) (m : VecMap K V) (key : K) :
    (pairs.foldl (fun m p => m.insert p.1 p.2) m).get key =
      (((pairs.filter fun p => p.1 = key).map Prod.snd).getLast?).or (m.get key) := by
  induction pairs using List.reverseRecOn with
  | nil => rfl
  | append_singleton pairs p ih =>
    rw [List.foldl_append, List.foldl_cons, List.foldl_nil, VecMap.get_insert, ih]
    by_cases h : p.1 = key <;> simp [h, List.filter_append]

end Insert

/-! ## The loops of `parse_header` -/

/-- The pair one piece of a line gives: `splitn(2, '=')` yields a key and a value, and both
are trimmed (cookie.rs:138-142). -/
def cookiePair (cookieStr : List Char) : Option (List Char × List Char) :=
  let keyVal := splitnTwo '=' cookieStr
  match keyVal.head?, keyVal.tail.head? with
  | some key, some val => some (trim key, trim val)
  | _, _ => none

/-- The pairs of one line, in order. -/
def linePairs (cookiesStr : List Char) : List (List Char × List Char) :=
  (cookiesStr.splitOn ';').filterMap cookiePair

/-- One piece of a line inserts its pair, or nothing when it gives none. -/
theorem insertCookieStr_eq (m : VecMap (List Char) (List Char)) (cookieStr : List Char) :
    insertCookieStr m cookieStr =
      match cookiePair cookieStr with
      | some p => m.insert p.1 p.2
      | none => m := by
  simp only [insertCookieStr, cookiePair]
  cases (splitnTwo '=' cookieStr).head? <;> cases (splitnTwo '=' cookieStr).tail.head? <;> rfl

/-- The pieces of a line insert their pairs in order. -/
theorem foldl_insertCookieStr (pieces : List (List Char)) (m : VecMap (List Char) (List Char)) :
    pieces.foldl insertCookieStr m =
      (pieces.filterMap cookiePair).foldl (fun m p => m.insert p.1 p.2) m := by
  induction pieces generalizing m with
  | nil => rfl
  | cons piece pieces ih =>
    rw [List.foldl_cons, ih, insertCookieStr_eq, List.filterMap_cons]
    cases cookiePair piece <;> rfl

/-- The inner loop inserts the pairs of the line. -/
theorem insertCookiesStr_eq (m : VecMap (List Char) (List Char)) (cookiesStr : List Char) :
    insertCookiesStr m cookiesStr = (linePairs cookiesStr).foldl (fun m p => m.insert p.1 p.2) m :=
  foldl_insertCookieStr _ m

/-- The outer loop stops at a line that is not UTF-8, or inserts the pairs of all lines. -/
theorem parseLines_eq (lines : List (List UInt8)) (m : VecMap (List Char) (List Char)) :
    parseLines m lines =
      match lines.mapM fromUtf8 with
      | none => .error .utf8
      | some strs => .ok ((strs.flatMap linePairs).foldl (fun m p => m.insert p.1 p.2) m) := by
  induction lines generalizing m with
  | nil => rfl
  | cons line lines ih =>
    rw [List.mapM_cons]
    cases hl : fromUtf8 line with
    | none => simp [parseLines, hl]
    | some s =>
      simp only [parseLines, hl, ih, insertCookiesStr_eq]
      cases lines.mapM fromUtf8 <;> simp [List.foldl_append]

/-- `parse_header` fails at a line that is not UTF-8, and otherwise returns the map
insertion of the pairs of all lines when it is not empty. -/
theorem parseHeader_eq_fold (lines : List (List UInt8)) :
    parseHeader ⟨lines⟩ =
      match lines.mapM fromUtf8 with
      | none => .error .utf8
      | some strs =>
        if ((strs.flatMap linePairs).foldl (fun m p => m.insert p.1 p.2)
            (⟨[]⟩ : VecMap (List Char) (List Char))).len ≠ 0 then
          .ok ⟨(strs.flatMap linePairs).foldl (fun m p => m.insert p.1 p.2) ⟨[]⟩⟩
        else .error .header := by
  have hcap :
      VecMap.withCapacity (Raw.len ⟨lines⟩) = (⟨[]⟩ : VecMap (List Char) (List Char)) := rfl
  simp only [parseHeader, hcap, parseLines_eq lines ⟨[]⟩]
  cases lines.mapM fromUtf8 <;> rfl

/-- Cookie parse outcomes: `parse_header` fails with the UTF-8 error exactly when some line
is not UTF-8. Otherwise it fails with `Error::Header` exactly when no piece of any line is
a `key=value` pair, and else it returns a cookie whose names are pairwise distinct and in
which every name reads the value of its last piece, over all lines in order. -/
theorem cookie_parseHeader_outcome (lines : List (List UInt8)) :
    match lines.mapM fromUtf8 with
    | none => parseHeader ⟨lines⟩ = .error .utf8
    | some strs =>
      if strs.flatMap linePairs = [] then parseHeader ⟨lines⟩ = .error .header
      else ∃ c, parseHeader ⟨lines⟩ = .ok c ∧ Distinct c ∧
        ∀ key, c.get key =
          (((strs.flatMap linePairs).filter fun p => p.1 = key).map Prod.snd).getLast? := by
  rw [parseHeader_eq_fold]
  cases lines.mapM fromUtf8 with
  | none => rfl
  | some strs =>
    dsimp only
    by_cases hnil : strs.flatMap linePairs = []
    · rw [if_pos hnil, hnil]
      rfl
    · rw [if_neg hnil, if_pos (len_foldl_insert_ne_zero hnil _)]
      refine ⟨⟨_⟩, rfl, nodup_foldl_insert (strs.flatMap linePairs) ⟨[]⟩ List.nodup_nil,
        fun key => ?_⟩
      rw [Cookie.get, get_foldl_insert]
      exact Option.or_none

end Hyperx.Analysis.CookieParse
