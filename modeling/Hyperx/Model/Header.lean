import Hyperx.Model.Utf8
import Hyperx.Model.Text

/-!
# What the header types share

The header sources lean on four pieces of the `header` module that are not among them:
the crate's `Error`, the raw field behind `RawLike`, the vector map behind `Cookie`, and
the single-line parser `parsing::from_one_raw_str`. Each is modelled here from the spec
and from what the sources themselves say of it, and each says so in its doc comment.
-/

set_option autoImplicit false

namespace Hyperx.Model

/-- Modelled from the spec: the crate's `Error` (`error.rs` is not among the sources).
A field that fails its header's grammar is `Error::Header`; raw bytes that are not
UTF-8 where text is required are the error `from_utf8(...)?` converts. -/
inductive Error where
  | header
  | utf8
  deriving DecidableEq, Repr

/-- Modelled from the spec: a raw field (the `RawLike` trait is not among the sources),
"an ordered sequence of byte strings, one per physical occurrence of the header on the
wire". -/
structure Raw where
  lines : List (List UInt8)
  deriving DecidableEq, Repr

namespace Raw

/-- Modelled from the spec: `RawLike::len`, the number of lines. -/
def len (raw : Raw) : Nat := raw.lines.length

/-- Modelled from the spec: `RawLike::one`, the line of a field that has exactly one. -/
def one (raw : Raw) : Option (List UInt8) :=
  match raw.lines with
  | [line] => some line
  | _ => none

end Raw

/-- Modelled from the spec: `VecMap<K, V>` (`header/internals/vec_map.rs` is not among
the sources), the `Vec` of pairs a `Cookie` keeps "in insertion order" (cookie.rs:102),
where `append` may store a name again (cookie.rs:72-80) and `get` "only returns the
first instance found" (cookie.rs:93). -/
structure VecMap (K V : Type) where
  vec : List (K × V)
  deriving DecidableEq, Repr

namespace VecMap

variable {K V : Type}

/-- Modelled from the spec: `VecMap::with_capacity`; the capacity is not observable. -/
def withCapacity (_cap : Nat) : VecMap K V := ⟨[]⟩

/-- Modelled from the spec: the entries after a map insertion of `key`: the first entry
of that key takes the new pair in its place, and a key not yet present is pushed. -/
def insertEntry [DecidableEq K] (key : K) (value : V) : List (K × V) → List (K × V)
  | [] => [(key, value)]
  | entry :: vec => if key = entry.1 then (key, value) :: vec else entry :: insertEntry key value vec

/-- A key that is not present is pushed at the end. -/
theorem insertEntry_of_not_mem [DecidableEq K] {key : K} (value : V) {vec : List (K × V)}
    (h : key ∉ vec.map Prod.fst) : insertEntry key value vec = vec ++ [(key, value)] := by
  induction vec with
  | nil => rfl
  | cons e vec ih =>
    have hne : key ≠ e.1 := fun he => h (he ▸ List.mem_cons_self _ _)
    simp [insertEntry, hne, ih (fun hm => h (List.mem_cons_of_mem _ hm))]

/-- Map insertion never shortens the entries, and leaves at least one. -/
theorem length_insertEntry [DecidableEq K] (key : K) (value : V) (vec : List (K × V)) :
    vec.length ≤ (insertEntry key value vec).length ∧
      0 < (insertEntry key value vec).length := by
  induction vec with
  | nil => simp [insertEntry]
  | cons e vec ih => by_cases h : key = e.1 <;> simp [insertEntry, h, ih.1]

/-- Map insertion keeps the keys when `key` is present, and pushes `key` when not. -/
theorem keys_insertEntry [DecidableEq K] (key : K) (value : V) (vec : List (K × V)) :
    (insertEntry key value vec).map Prod.fst =
      if key ∈ vec.map Prod.fst then vec.map Prod.fst else vec.map Prod.fst ++ [key] := by
  induction vec with
  | nil => simp [insertEntry]
  | cons e vec ih =>
    by_cases h : key = e.1
    · simp [insertEntry, h]
    · rw [insertEntry, if_neg h, List.map_cons, ih]
      by_cases hm : key ∈ vec.map Prod.fst <;> simp [hm, h]

/-- Modelled from the spec: `VecMap::insert`, the map insertion `parse_header` uses. -/
def insert [DecidableEq K] (m : VecMap K V) (key : K) (value : V) : VecMap K V :=
  ⟨insertEntry key value m.vec⟩

/-- Modelled from the spec: `VecMap::append` pushes the pair, a repeated name included. -/
def append (m : VecMap K V) (key : K) (value : V) : VecMap K V := ⟨m.vec ++ [(key, value)]⟩

/-- Modelled from the spec: `VecMap::get`, the value of the first entry of `key`. -/
def get [DecidableEq K] (m : VecMap K V) (key : K) : Option V :=
  (m.vec.find? fun entry => entry.1 = key).map Prod.snd

/-- After a map insertion, `get` of the key reads the new value, and every other key
reads what it read before. -/
theorem get_insert [DecidableEq K] (m : VecMap K V) (key : K) (value : V) (k : K) :
    (m.insert key value).get k = if key = k then some value else m.get k := by
  obtain ⟨vec⟩ := m
  simp only [insert, get]
  induction vec with
  | nil => by_cases h : key = k <;> simp [insertEntry, h]
  | cons e vec ih =>
    obtain ⟨k', v'⟩ := e
    by_cases he : key = k'
    · subst he
      by_cases h : key = k <;> simp [insertEntry, h]
    · by_cases hk : k' = k
      · subst hk
        simp [insertEntry, he]
      · simp [insertEntry, he, hk, ih]

/-- Modelled from the spec: `VecMap::remove_all` drops every entry of `key`. -/
def removeAll [DecidableEq K] (m : VecMap K V) (key : K) : VecMap K V :=
  ⟨m.vec.filter fun entry => entry.1 ≠ key⟩

/-- Modelled from the spec: `VecMap::len`. -/
def len (m : VecMap K V) : Nat := m.vec.length

/-- Modelled from the spec: `VecMap::iter`, the pairs in order. -/
def iter (m : VecMap K V) : List (K × V) := m.vec

end VecMap

/-- Modelled from the spec: `parsing::from_raw_str`: the line as UTF-8 text, without
its surrounding whitespace, read by the type's `FromStr`, whose failure is
`Error::Header`. -/
def fromRawStr {T : Type} (fromStr : List Char → Except Error T) (line : List UInt8) :
    Except Error T :=
  match fromUtf8 line with
  | none => .error .utf8
  | some s =>
    match fromStr (trim s) with
    | .ok t => .ok t
    | .error _ => .error .header

/-- Modelled from the spec: `parsing::from_one_raw_str`, the decoder of a single-valued
header: a field of exactly one non-empty line, read by `from_raw_str`. -/
def fromOneRawStr {T : Type} (fromStr : List Char → Except Error T) (raw : Raw) :
    Except Error T :=
  match raw.one with
  | some line => if line.isEmpty then .error .header else fromRawStr fromStr line
  | none => .error .header

/-- `from_one_raw_str` reads back the one line `s` holds when `s` is unpadded, so that
`trim` keeps it, and `from_str` accepts it. -/
theorem fromOneRawStr_asBytes {T : Type} (fromStr : List Char → Except Error T)
    {s : List Char} (hne : s ≠ []) (hs : Unpadded s) {t : T} (hok : fromStr s = .ok t) :
    fromOneRawStr fromStr ⟨[asBytes s]⟩ = .ok t := by
  simp [fromOneRawStr, Raw.one, asBytes_ne_nil hne, fromRawStr, trim_eq_self hs, hok]

end Hyperx.Model
