import Mathlib.Data.List.Basic
import Mathlib.Data.Nat.Digits

/-!
# The `str` operations the header parsers call

A Rust `String` or `&str` is a list of `char`s. The parsers split on a character
(`str::split`, which is `List.splitOn`), split once (`splitn(2, _)`), trim Unicode
whitespace, split on whitespace and fold ASCII case; the `Warning` header also formats
and parses a `u16`. Each is given here with the lemmas its callers need: how it acts
on a text that carries its separator in a known place, and that it leaves alone a text
that gives it nothing to do.
-/

set_option autoImplicit false

namespace Hyperx.Model

/-! ## Whitespace -/

/-- `char::is_whitespace`: the Unicode `White_Space` property. -/
def isWhitespace (c : Char) : Bool :=
  let n := c.toNat
  (0x09 ≤ n && n ≤ 0x0D) || n == 0x20 || n == 0x85 || n == 0xA0 || n == 0x1680 ||
    (0x2000 ≤ n && n ≤ 0x200A) || n == 0x2028 || n == 0x2029 || n == 0x202F ||
    n == 0x205F || n == 0x3000

/-- `str::trim`: the text without leading and trailing whitespace. -/
def trim (s : List Char) : List Char :=
  ((s.dropWhile isWhitespace).reverse.dropWhile isWhitespace).reverse

/-- A text that neither starts nor ends with whitespace. -/
def Unpadded (s : List Char) : Prop :=
  (∀ c ∈ s.head?, isWhitespace c = false) ∧ ∀ c ∈ s.getLast?, isWhitespace c = false

instance (s : List Char) : Decidable (Unpadded s) := inferInstanceAs (Decidable (_ ∧ _))

/-- An unpadded text is its own trim. -/
theorem trim_eq_self {s : List Char} (hs : Unpadded s) : trim s = s := by
  obtain ⟨hh, hl⟩ := hs
  cases s with
  | nil => rfl
  | cons c s =>
    have h1 : (c :: s).dropWhile isWhitespace = c :: s :=
      List.dropWhile_cons_of_neg (by simpa using hh c rfl)
    obtain ⟨t, x, hx⟩ : ∃ t x, c :: s = t ++ [x] := ⟨_, _, (List.dropLast_append_getLast
      (List.cons_ne_nil c s)).symm⟩
    have hx' : isWhitespace x = false := hl x (by simp [hx])
    rw [trim, h1, hx, List.reverse_append, List.reverse_singleton, List.singleton_append,
      List.dropWhile_cons_of_neg (by simp [hx']), List.reverse_cons, List.reverse_reverse]

/-- Leading whitespace does not survive `trim`. -/
theorem trim_cons_whitespace {c : Char} (hc : isWhitespace c = true) (s : List Char) :
    trim (c :: s) = trim s := by
  rw [trim, List.dropWhile_cons_of_pos hc, ← trim]

/-! ## Splitting -/

/-- `str::split(c)` at a separator: the pieces of each side. -/
theorem splitOn_append_cons (c : Char) (a b : List Char) :
    (a ++ c :: b).splitOn c = a.splitOn c ++ b.splitOn c := by
  induction a with
  | nil => simp [List.splitOn, List.splitOnP_cons]
  | cons x a ih =>
    simp only [List.splitOn] at ih ⊢
    rw [List.cons_append, List.splitOnP_cons, List.splitOnP_cons, ih]
    split
    · rfl
    · cases h : List.splitOnP (· == c) a with
      | nil => exact absurd h (List.splitOnP_ne_nil _ a)
      | cons s ss => rfl

/-- `str::split(c)` of a text without `c`: the text itself. -/
theorem splitOn_of_not_mem {c : Char} {s : List Char} (h : c ∉ s) : s.splitOn c = [s] :=
  List.splitOnP_eq_single _ _ fun x hx hxc => h (by simpa [eq_of_beq hxc] using hx)

/-- `str::splitn(2, c)`: the text up to the first `c`, then, if there is a `c`, the
rest after it. -/
def splitnTwo (c : Char) : List Char → List (List Char)
  | [] => [[]]
  | x :: s => if x = c then [[], s] else (splitnTwo c s).modifyHead (x :: ·)

/-- `splitn(2, c)` at the first `c`. -/
theorem splitnTwo_append_cons {c : Char} {a : List Char} (ha : c ∉ a) (b : List Char) :
    splitnTwo c (a ++ c :: b) = [a, b] := by
  induction a with
  | nil => simp [splitnTwo]
  | cons x a ih =>
    have hx : x ≠ c := fun h => ha (h ▸ List.mem_cons_self x a)
    simp [splitnTwo, hx, ih (fun h => ha (List.mem_cons_of_mem x h))]

/-- `str::split_whitespace`: the non-empty pieces between whitespace. -/
def splitWhitespace (s : List Char) : List (List Char) :=
  (s.splitOnP isWhitespace).filter fun w => !w.isEmpty

/-- A non-empty word free of whitespace, then whitespace, is the first word. -/
theorem splitWhitespace_append_cons {w : List Char} (hw : w ≠ [])
    (hnw : ∀ c ∈ w, isWhitespace c = false) {c : Char} (hc : isWhitespace c = true)
    (rest : List Char) : splitWhitespace (w ++ c :: rest) = w :: splitWhitespace rest := by
  rw [splitWhitespace, List.splitOnP_first _ w (fun x hx => by simp [hnw x hx]) c hc,
    List.filter_cons_of_pos (by simpa using hw)]
  rfl

/-- `str::to_ascii_lowercase`. -/
def toAsciiLowercase (s : List Char) : List Char := s.map Char.toLower

/-! ## Decimal numbers -/

/-- `format!("{:03}", n)` of an unsigned integer: its decimal digits (`Display`, which
is core's `Nat.toDigits`), left-padded with `0` to width 3. -/
def fmtPad3 (n : Nat) : List Char :=
  List.replicate (3 - (Nat.toDigits 10 n).length) '0' ++ Nat.toDigits 10 n

/-- One pass of the loop of `u16::from_str`: `checked_mul(10)`, then `checked_add` of
the digit, failing on a character that is no digit or past `u16::MAX`. -/
def pushDigit (acc : Nat) (c : Char) : Option Nat :=
  if c.isDigit ∧ acc * 10 + (c.toNat - 48) ≤ 65535 then some (acc * 10 + (c.toNat - 48))
  else none

/-- `u16::from_str`: an optional leading `+`, then at least one digit. -/
def parseU16 (src : List Char) : Option UInt16 :=
  let digits := match src with
    | '+' :: rest => rest
    | _ => src
  if digits.isEmpty then none else (digits.foldlM pushDigit 0).map UInt16.ofNat

/-- Reading more digits never lowers the value read so far. -/
theorem le_foldl_decimal (ds : List Nat) (acc : Nat) :
    acc ≤ ds.foldl (fun a d => a * 10 + d) acc := by
  induction ds generalizing acc with
  | nil => exact le_rfl
  | cons d ds ih => exact le_trans (by dsimp only; omega) (ih _)

/-- The digit characters, and the value `u16::from_str` reads off each. -/
theorem digitChar_isDigit : ∀ d, d < 10 →
    (Nat.digitChar d).isDigit = true ∧ (Nat.digitChar d).toNat - 48 = d := by
  decide

/-- Core's `Nat.toDigits` writes digits whose value is the number, ahead of what it was
given to append to. -/
theorem toDigitsCore_spec (fuel n : Nat) (hn : n < fuel) (acc : List Char) :
    ∃ ds : List Nat, Nat.toDigitsCore 10 fuel n acc = ds.map Nat.digitChar ++ acc ∧
      (∀ d ∈ ds, d < 10) ∧ ds ≠ [] ∧ ds.foldl (fun a d => a * 10 + d) 0 = n := by
  induction fuel generalizing n acc with
  | zero => omega
  | succ fuel ih =>
    rw [Nat.toDigitsCore]
    split
    · exact ⟨[n % 10], rfl, by simp only [List.mem_singleton, forall_eq]; omega,
        List.cons_ne_nil _ _, by simp only [List.foldl_cons, List.foldl_nil]; omega⟩
    · obtain ⟨ds, hds, hlt, -, hval⟩ := ih (n / 10) (by omega) (Nat.digitChar (n % 10) :: acc)
      refine ⟨ds ++ [n % 10], by simp [hds], ?_, by simp, ?_⟩
      · simpa [or_imp, forall_and] using ⟨hlt, Nat.mod_lt n (by omega)⟩
      · rw [List.foldl_append, hval, List.foldl_cons, List.foldl_nil]; omega

/-- Reading digits `u16::from_str`'s loop accepts: each pass multiplies by ten and adds. -/
theorem foldlM_pushDigit (ds : List Nat) (hds : ∀ d ∈ ds, d < 10) (acc : Nat)
    (hv : ds.foldl (fun a d => a * 10 + d) acc ≤ 65535) :
    (ds.map Nat.digitChar).foldlM pushDigit acc = some (ds.foldl (fun a d => a * 10 + d) acc) := by
  induction ds generalizing acc with
  | nil => rfl
  | cons d ds ih =>
    obtain ⟨hdig, hval⟩ := digitChar_isDigit d (hds d (.head _))
    have hstep : pushDigit acc (Nat.digitChar d) = some (acc * 10 + d) := by
      rw [pushDigit, hval, if_pos ⟨hdig, le_trans (le_foldl_decimal ds _) hv⟩]
    rw [List.map_cons, List.foldlM_cons, hstep]
    exact ih (fun x hx => hds x (.tail _ hx)) _ hv

/-- `u16::from_str` reads a non-empty run of digits whose value fits a `u16`. -/
theorem parseU16_digits (ds : List Nat) (hds : ∀ d ∈ ds, d < 10) (hne : ds ≠ [])
    (hv : ds.foldl (fun a d => a * 10 + d) 0 ≤ 65535) :
    parseU16 (ds.map Nat.digitChar) = some (UInt16.ofNat (ds.foldl (fun a d => a * 10 + d) 0)) := by
  obtain ⟨d, ds', rfl⟩ := List.exists_cons_of_ne_nil hne
  have hplus : Nat.digitChar d ≠ '+' := fun h => by
    simpa [h] using (digitChar_isDigit d (hds d (.head _))).1
  unfold parseU16
  split
  next rest h => exact absurd (List.cons.inj h).1 hplus
  · dsimp only; rw [foldlM_pushDigit _ hds 0 hv]; rfl

/-- `format!("{:03}", n)` is a non-empty run of digits whose value is `n`. -/
theorem fmtPad3_spec (n : Nat) : ∃ ds : List Nat, fmtPad3 n = ds.map Nat.digitChar ∧
    (∀ d ∈ ds, d < 10) ∧ ds ≠ [] ∧ ds.foldl (fun a d => a * 10 + d) 0 = n := by
  obtain ⟨ds, hds, hlt, hne, hval⟩ := toDigitsCore_spec (n + 1) n (by omega) []
  have hzero : ∀ k, (List.replicate k 0).foldl (fun a d => a * 10 + d) 0 = 0 := by
    intro k
    induction k with
    | zero => rfl
    | succ k ih => exact ih
  refine ⟨List.replicate (3 - (Nat.toDigits 10 n).length) 0 ++ ds, ?_, ?_, by simp [hne], ?_⟩
  · rw [fmtPad3, List.map_append, List.map_replicate, ← List.append_nil (ds.map _), ← hds]
    rfl
  · simpa [or_imp, forall_and] using hlt
  · rw [List.foldl_append, hzero, hval]

/-- `u16::from_str` reads back `format!("{:03}", n)` for every `u16`. -/
theorem parseU16_fmtPad3 (n : UInt16) : parseU16 (fmtPad3 n.toNat) = some n := by
  obtain ⟨ds, hpad, hlt, hne, hval⟩ := fmtPad3_spec n.toNat
  rw [hpad, parseU16_digits ds hlt hne (by rw [hval]; exact Nat.le_of_lt_succ n.toNat_lt_size),
    hval]
  exact congrArg some (UInt16.toNat.inj (UInt16.toNat_ofNat_of_lt n.toNat_lt_size))

example : fmtPad3 7 = "007".toList ∧ parseU16 "+0299".toList = some 299 ∧
    parseU16 "65536".toList = none := by
  decide

end Hyperx.Model
