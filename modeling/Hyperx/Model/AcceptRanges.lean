import Hyperx.Model.Header

/-!
# The range unit of `Accept-Ranges` (`header/common/accept_ranges.rs`)

A `RangeUnit` is `bytes`, `none`, or any other text, an unregistered unit. Its `FromStr`
matches the two keywords and takes every other text as an unregistered unit, so it
never fails; its `Display` writes the keywords and an unregistered unit's text. The
header itself, a comma-separated list of units, is generated by the `header!` macro,
which is not among the sources.
-/

set_option autoImplicit false

namespace Hyperx.Model

/-- `RangeUnit` (accept_ranges.rs:77-85). -/
inductive RangeUnit where
  | bytes
  | none
  | unregistered (s : List Char)
  deriving DecidableEq, Repr

namespace RangeUnit

/-- `impl FromStr for RangeUnit` (accept_ranges.rs:87-97). -/
def fromStr (s : List Char) : Except Error RangeUnit :=
  if s = "bytes".toList then .ok .bytes
  else if s = "none".toList then .ok RangeUnit.none
  else .ok (.unregistered s)

/-- `impl Display for RangeUnit` (accept_ranges.rs:99-107). -/
def fmt : RangeUnit → List Char
  | .bytes => "bytes".toList
  | .none => "none".toList
  | .unregistered x => x

end RangeUnit

end Hyperx.Model
