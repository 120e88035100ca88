import Hyperx.Model.Header

/-!
# The `Cookie` header (`header/common/cookie.rs`)

A `Cookie` is a `VecMap` of names and values. `append` stores a pair even when its name
is already there, `set` first removes every pair of the name, and `get` reads the first
pair of a name. `parse_header` reads every raw line as UTF-8, splits it on `;`, and
inserts each `key=val` piece, trimmed, by map insertion; a piece without `=` is
skipped, and a field with no pair at all is an error. `Display` joins the pairs as
`key=val; key=val`. Equality compares lengths and looks every pair of the left cookie
up with `get` in the right one.
-/

set_option autoImplicit false

namespace Hyperx.Model

/-- `Cookie(VecMap<Cow<'static, str>, Cow<'static, str>>)`. -/
structure Cookie where
  map : VecMap (List Char) (List Char)
  deriving DecidableEq, Repr

namespace Cookie

/-- `Cookie::new`. -/
def new : Cookie := ⟨VecMap.withCapacity 0⟩

/-- `Cookie::set`: `remove_all(&key)`, then `append(key, value)`. -/
def set (c : Cookie) (key value : List Char) : Cookie :=
  ⟨(c.map.removeAll key).append key value⟩

/-- `Cookie::append`. -/
def append (c : Cookie) (key value : List Char) : Cookie := ⟨c.map.append key value⟩

/-- `Cookie::get`. -/
def get (c : Cookie) (key : List Char) : Option (List Char) := c.map.get key

/-- `Cookie::iter`: the pairs in insertion order. -/
def iter (c : Cookie) : List (List Char × List Char) := c.map.iter

/-- One `cookie_str` of `parse_header`'s inner loop: with
`(key_val.next(), key_val.next())` both present, the trimmed pair is inserted. -/
def insertCookieStr (vecMap : VecMap (List Char) (List Char)) (cookieStr : List Char) :
    VecMap (List Char) (List Char) :=
  let keyVal := splitnTwo '=' cookieStr
  match keyVal.head?, keyVal.tail.head? with
  | some key, some val => vecMap.insert (trim key) (trim val)
  | _, _ => vecMap

/-- The inner loop over `cookies_str.split(';')`. -/
def insertCookiesStr (vecMap : VecMap (List Char) (List Char)) (cookiesStr : List Char) :
    VecMap (List Char) (List Char) :=
  (cookiesStr.splitOn ';').foldl insertCookieStr vecMap

/-- The outer loop over the raw lines; `from_utf8(cookies_raw)?` returns at the first
line that is not UTF-8. -/
def parseLines (vecMap : VecMap (List Char) (List Char)) :
    List (List UInt8) → Except Error (VecMap (List Char) (List Char))
  | [] => .ok vecMap
  | cookiesRaw :: lines =>
    match fromUtf8 cookiesRaw with
    | none => .error .utf8
    | some cookiesStr => parseLines (insertCookiesStr vecMap cookiesStr) lines

/-- `Cookie::parse_header`: the pairs of every line; a field with none is an error. -/
def parseHeader (raw : Raw) : Except Error Cookie := do
  let vecMap ← parseLines (VecMap.withCapacity raw.len) raw.lines
  if vecMap.len ≠ 0 then pure ⟨vecMap⟩ else throw .header

/-- `impl PartialEq for Cookie`: equal lengths, and `other.get(k) == Some(v)` for every
pair `(k, v)` of `self`. -/
def eq (self other : Cookie) : Bool :=
  if self.map.len = other.map.len then self.map.iter.all fun (k, v) => other.get k == some v
  else false

/-- `impl Display for Cookie`: the first pair as `key=val`, every later one as
`; key=val`. -/
def fmt (c : Cookie) : List Char :=
  match c.map.iter with
  | [] => []
  | (key, val) :: rest =>
    key ++ '=' :: val ++ rest.flatMap fun (key, val) => "; ".toList ++ key ++ '=' :: val

example : ((Cookie.new.append "foo".toList "bar".toList).append "foo".toList "quux".toList).fmt =
    "foo=bar; foo=quux".toList := by decide

end Cookie

end Hyperx.Model
