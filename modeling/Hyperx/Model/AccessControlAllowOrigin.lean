import Hyperx.Model.Header

/-!
# The `Access-Control-Allow-Origin` header (`header/common/access_control_allow_origin.rs`)

A field of exactly one line. The bytes `*` and `null` are its two keywords; any other
line is an origin, which must be UTF-8. `Display` writes the keywords back and an
origin as its text.
-/

set_option autoImplicit false

namespace Hyperx.Model

/-- `AccessControlAllowOrigin`. -/
inductive AccessControlAllowOrigin where
  | any
  | null
  | value (url : List Char)
  deriving DecidableEq, Repr

namespace AccessControlAllowOrigin

/-- `parse_header`: the keywords `b"*"` and `b"null"` are matched on the raw bytes before
the line is read as an origin. -/
def parseHeader (raw : Raw) : Except Error AccessControlAllowOrigin :=
  match raw.one with
  | some line =>
    if line = asBytes "*".toList then .ok .any
    else if line = asBytes "null".toList then .ok .null
    else
      match fromUtf8 line with
      | some url => .ok (.value url)
      | none => .error .utf8
  | none => .error .header

/-- `impl Display for AccessControlAllowOrigin`. -/
def fmt : AccessControlAllowOrigin → List Char
  | .any => "*".toList
  | .null => "null".toList
  | .value url => url

end AccessControlAllowOrigin

end Hyperx.Model
