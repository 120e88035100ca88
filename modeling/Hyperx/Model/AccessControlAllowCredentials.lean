import Hyperx.Model.Header

/-!
# The `Access-Control-Allow-Credentials` header
(`header/common/access_control_allow_credentials.rs`)

The header has one acceptable value, `true`, so its type holds nothing. `parse_header`
takes a field of exactly one line, views its bytes as text without checking that they
are UTF-8 (`from_utf8_unchecked`), and accepts the line when `unicase::eq_ascii` finds it
equal to `"true"` up to ASCII case. `Display` writes `true`. The `unicase` crate is not
among the sources: `eq_ascii` is modelled from its documentation, as
`str::eq_ignore_ascii_case`, which compares the bytes.
-/

set_option autoImplicit false

namespace Hyperx.Model

/-- `u8::to_ascii_lowercase`: an uppercase ASCII letter moves up by `32`, any other byte
stays. -/
def asciiLowercaseByte (b : UInt8) : UInt8 :=
  if 0x41 ≤ b.toNat ∧ b.toNat ≤ 0x5A then UInt8.ofNat (b.toNat + 0x20) else b

/-- `unicase::eq_ascii`, which is `str::eq_ignore_ascii_case`: the same length, and the
same bytes after `to_ascii_lowercase`. -/
def eqAscii (left right : List UInt8) : Bool :=
  left.length == right.length &&
    (left.zip right).all fun (a, b) => asciiLowercaseByte a == asciiLowercaseByte b

/-- `AccessControlAllowCredentials` (access_control_allow_credentials.rs:41-42). -/
structure AccessControlAllowCredentials where
  deriving DecidableEq, Repr

namespace AccessControlAllowCredentials

/-- `ACCESS_CONTROL_ALLOW_CREDENTIALS_TRUE` (access_control_allow_credentials.rs:44). -/
def accessControlAllowCredentialsTrue : List Char := "true".toList

/-- `parse_header` (access_control_allow_credentials.rs:52-70): the one line, compared
with `eq_ascii` as it is. -/
def parseHeader (raw : Raw) : Except Error AccessControlAllowCredentials :=
  match raw.one with
  | some line =>
    if eqAscii line (asBytes accessControlAllowCredentialsTrue) then .ok ⟨⟩ else .error .header
  | none => .error .header

/-- `impl Display for AccessControlAllowCredentials`
(access_control_allow_credentials.rs:77-81). -/
def fmt (_ : AccessControlAllowCredentials) : List Char := "true".toList

end AccessControlAllowCredentials

end Hyperx.Model
