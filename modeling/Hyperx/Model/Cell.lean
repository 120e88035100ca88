import Mathlib.Data.List.AList

/-!
# The caching cells of `header/internals/cell.rs`

Two cells memoize typed header values. `OptCell` is a slot written once by `set`
(cell.rs:7-44); `PtrMapCell` is the type-keyed cache that holds one boxed value per
`TypeId`, promoted from `Empty` to `One` to `Many` as distinct keys arrive
(cell.rs:46-164).

The Rust cells mutate through an `UnsafeCell`; here every operation returns the new
representation. A `TypeId` is a key of any type with decidable equality and a
`Box<V>` is a value of `V`. The `HashMap<TypeId, T>` behind `Many` is an `AList`, the
finite map whose keys are unique.

A panic is `none`. The two checks that are `debug_assert!`s in the source take the
build's `debugAssertions` flag: with it a violated check panics, without it the
operation goes on as the source's next line says.

A `&mut` reference handed out by `get_mut` is the value it points to together with
the write-back into the cell, so a caller's assignment through it is a function
applied to the result.
-/

set_option autoImplicit false

namespace Hyperx.Model

/-! ## `OptCell` -/

/-- `OptCell<T>`: the `Option<T>` inside the cell's `UnsafeCell`. -/
structure OptCell (T : Type) where
  val : Option T
  deriving DecidableEq, Repr

namespace OptCell

variable {T : Type}

/-- `OptCell::new`. -/
def new (val : Option T) : OptCell T := ⟨val⟩

/-- `Deref for OptCell`: the stored option. -/
def deref (c : OptCell T) : Option T := c.val

/-- `OptCell::set`: `debug_assert!((*opt).is_none())`, then `*opt = Some(val)`. -/
def set (debugAssertions : Bool) (c : OptCell T) (val : T) : Option (OptCell T) :=
  if debugAssertions && c.val.isSome then none else some ⟨some val⟩

/-- `OptCell::get_mut`: `opt.as_mut().unwrap()`, which panics on an empty cell. -/
def getMut (c : OptCell T) : Option (T × (T → OptCell T)) :=
  c.val.map fun v => (v, fun w => ⟨some w⟩)

/-- `Clone for OptCell`: a new cell around a copy of the stored option. -/
def clone (c : OptCell T) : OptCell T := new c.deref

/-- A new cell holds the option it was made with. -/
@[simp] theorem deref_new (val : Option T) : (new val).deref = val := rfl

/-- A clone holds what the cell holds. -/
@[simp] theorem deref_clone (c : OptCell T) : c.clone.deref = c.deref := rfl

end OptCell

/-! ## `PtrMapCell` -/

/-- `PtrMap<T>`, the representation inside a `PtrMapCell`. -/
inductive PtrMap (K V : Type) where
  | empty
  | one (id : K) (v : V)
  | many (hm : AList fun _ : K => V)

namespace PtrMapCell

variable {K V : Type} [DecidableEq K]

/-- `PtrMapCell::new`. -/
def new : PtrMap K V := .empty

/-- `PtrMapCell::with_one`. -/
def withOne (key : K) (val : V) : PtrMap K V := .one key val

/-- `PtrMapCell::get`. -/
def get (m : PtrMap K V) (key : K) : Option V :=
  match m with
  | .empty => none
  | .one id v => if id = key then some v else none
  | .many hm => hm.lookup key

/-- `PtrMapCell::get_mut`: the entry and the write-back through the `&mut V`; the
`Many` arm writes the entry of `hm.get_mut(&key)` in place. -/
def getMut (m : PtrMap K V) (key : K) : Option (V × (V → PtrMap K V)) :=
  match m with
  | .empty => none
  | .one id v => if id = key then some (v, fun w => .one id w) else none
  | .many hm => (hm.lookup key).map fun v => (v, fun w => .many (hm.insert key w))

/-- `PtrMapCell::into_value`: the `Many` arm is `hm.remove(&key)`, the rest of the map
dropped with the cell. -/
def intoValue (m : PtrMap K V) (key : K) : Option V :=
  match m with
  | .empty => none
  | .one id v => if id = key then some v else none
  | .many hm => (hm.extract key).1

/-- `PtrMapCell::insert`: `Empty` becomes `One`; `One` is promoted to a two-entry map
after `debug_assert_ne!(id, key)`; `Many` inserts into its map. -/
def insert (debugAssertions : Bool) (m : PtrMap K V) (key : K) (val : V) :
    Option (PtrMap K V) :=
  match m with
  | .empty => some (.one key val)
  | .one id one =>
    if debugAssertions && decide (id = key) then none
    else some (.many (((∅ : AList fun _ : K => V).insert id one).insert key val))
  | .many hm => some (.many (hm.insert key val))

/-- `PtrMapCell::one`: the `One` value, a panic otherwise. -/
def one (m : PtrMap K V) : Option V :=
  match m with
  | .one _ v => some v
  | _ => none

end PtrMapCell

end Hyperx.Model
