import Hyperx.Model.Header

/-!
# The `Referrer-Policy` header (`header/common/referrer_policy.rs`)

`parse_header` reads the field as a comma-delimited list of tokens and scans it from
the last token to the first: the first token that, ASCII-lowercased, names a policy
(the legacy `never`, `default` and `always` included) decides, unknown tokens are
skipped, and a list with no policy at all is an error.

`parsing::from_comma_delimited`, which produces the list, is not among the sources;
`parseHeader` takes it as its first argument.
-/

set_option autoImplicit false

namespace Hyperx.Model

/-- `ReferrerPolicy`. -/
inductive ReferrerPolicy where
  | noReferrer
  | noReferrerWhenDowngrade
  | sameOrigin
  | origin
  | originWhenCrossOrigin
  | unsafeUrl
  | strictOrigin
  | strictOriginWhenCrossOrigin
  deriving DecidableEq, Repr

namespace ReferrerPolicy

/-- The arms of `match slice` in `parse_header`. -/
def ofSlice (slice : List Char) : Option ReferrerPolicy :=
  if slice = "no-referrer".toList ∨ slice = "never".toList then some .noReferrer
  else if slice = "no-referrer-when-downgrade".toList ∨ slice = "default".toList then
    some .noReferrerWhenDowngrade
  else if slice = "same-origin".toList then some .sameOrigin
  else if slice = "origin".toList then some .origin
  else if slice = "origin-when-cross-origin".toList then some .originWhenCrossOrigin
  else if slice = "strict-origin".toList then some .strictOrigin
  else if slice = "strict-origin-when-cross-origin".toList then some .strictOriginWhenCrossOrigin
  else if slice = "unsafe-url".toList ∨ slice = "always".toList then some .unsafeUrl
  else none

/-- `parse_header`: `for h in headers.iter().rev()`, returning at the first token whose
lowercase is a policy, and `Error::Header` after the loop. -/
def parseHeader (fromCommaDelimited : Raw → Except Error (List (List Char))) (raw : Raw) :
    Except Error ReferrerPolicy :=
  match fromCommaDelimited raw with
  | .error e => .error e
  | .ok headers =>
    match headers.reverse.findSome? fun h => ofSlice (toAsciiLowercase h) with
    | some policy => .ok policy
    | none => .error .header

/-- `impl Display for ReferrerPolicy`. -/
def fmt : ReferrerPolicy → List Char
  | .noReferrer => "no-referrer".toList
  | .noReferrerWhenDowngrade => "no-referrer-when-downgrade".toList
  | .sameOrigin => "same-origin".toList
  | .origin => "origin".toList
  | .originWhenCrossOrigin => "origin-when-cross-origin".toList
  | .strictOrigin => "strict-origin".toList
  | .strictOriginWhenCrossOrigin => "strict-origin-when-cross-origin".toList
  | .unsafeUrl => "unsafe-url".toList

end ReferrerPolicy

end Hyperx.Model
