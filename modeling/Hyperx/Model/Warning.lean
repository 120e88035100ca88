import Hyperx.Model.Header
import Hyperx.Model.Text

/-!
# The `Warning` header

`Warning` (warning.rs) holds a `u16` code, an agent, a text and an optional date. Its
`Display` writes `{:03} {agent} "{text}"`, then ` "{date}"` when there is a date; its
`FromStr` reads the code and the agent as the first two whitespace-separated words, and
the text and the date as the pieces of the line between its first and second, and
between its third and fourth, double quotes. `HttpDate` is not among the sources: the
model sees it through its `Display` and its `FromStr`, which are parameters.
-/

set_option autoImplicit false

namespace Hyperx.Model

/-- Modelled from the spec: `HttpDate`, which is not among the sources, seen through its
`Display` (`fmt`) and its `FromStr` with the error dropped, as `.ok()` does (`parse`). -/
structure HttpDateCodec (D : Type) where
  fmt : D → List Char
  parse : List Char → Option D

/-- `Warning` (warning.rs:82-92), over the type `D` of its `HttpDate`. -/
structure Warning (D : Type) where
  code : UInt16
  agent : List Char
  text : List Char
  date : Option D
  deriving DecidableEq, Repr

namespace Warning

variable {D : Type}

/-- `impl FromStr for Warning` (warning.rs:125-159). -/
def fromStr (httpDate : HttpDateCodec D) (s : List Char) : Except Error (Warning D) := do
  let warningSplit := splitWhitespace s
  let code ← match warningSplit[0]? with
    | some c => match parseU16 c with
      | some c => pure c
      | none => throw .header
    | none => throw .header
  let agent ← match warningSplit[1]? with
    | some a => pure a
    | none => throw .header
  -- `s.split('"').skip(1)`: `next()` is the text, `nth(1)` the piece after the next
  let quoteSplit := (s.splitOn '"').drop 1
  let text ← match quoteSplit[0]? with
    | some t => pure t
    | none => throw .header
  let date := match quoteSplit[2]? with
    | some d => httpDate.parse d
    | none => none
  pure { code, agent, text, date }

/-- `impl Display for Warning` (warning.rs:112-123). -/
def fmt (httpDate : HttpDateCodec D) (w : Warning D) : List Char :=
  match w.date with
  | some date =>
    fmtPad3 w.code.toNat ++ ' ' :: w.agent ++ ' ' :: '"' :: w.text ++
      '"' :: ' ' :: '"' :: httpDate.fmt date ++ ['"']
  | none => fmtPad3 w.code.toNat ++ ' ' :: w.agent ++ ' ' :: '"' :: w.text ++ ['"']

/-- `Header::parse_header` (warning.rs:100-105): `from_one_raw_str`. -/
def parseHeader (httpDate : HttpDateCodec D) (raw : Raw) : Except Error (Warning D) :=
  fromOneRawStr (fromStr httpDate) raw

end Warning

end Hyperx.Model
