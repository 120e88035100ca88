import Hyperx.Model.Header

/-!
# The `Last-Event-ID` header (`header/common/last_event_id.rs`)

A field of exactly one line holding the id of the last event a client received. An empty
line is the empty id, the "reset"; any other line is read by `from_raw_str`, and
`String`'s `FromStr` takes the trimmed text as it is. `Display` writes the id.
-/

set_option autoImplicit false

namespace Hyperx.Model

/-- `LastEventId(pub String)` (last_event_id.rs:28-29). -/
structure LastEventId where
  id : List Char
  deriving DecidableEq, Repr

namespace LastEventId

/-- `parse_header` (last_event_id.rs:39-49): `Some(line) if line.is_empty()` is the empty
id, and `from_raw_str(line).map(LastEventId)` reads any other line. -/
def parseHeader (raw : Raw) : Except Error LastEventId :=
  match raw.one with
  | some line =>
    if line.isEmpty then .ok ⟨[]⟩
    else (fromRawStr (fun s => .ok s) line).map LastEventId.mk
  | none => .error .header

/-- `impl Display for LastEventId` (last_event_id.rs:56-61). -/
def fmt (e : LastEventId) : List Char := e.id

end LastEventId

end Hyperx.Model
