import ChainState.Checked
import ChainState.Text.Decimal

/-!
# Reading the body of a request

A body is one JSON value. Of its numbers only integers are looked at, and of
its strings only those whose escapes spell characters; a lone surrogate is
tolerated where nobody reads the string. The names of a record's own fields
are read, and those of the objects within it are not.

A record may be sent as an object, whose unknown fields are passed over and
whose known fields may each be there once, or as an array of all its fields
in order.
-/

set_option autoImplicit false

namespace ChainState.Http

inductive Submitted where
  | null
  | bool (value : Bool)
  | integer (value : Int)
  /-- A number with a fraction or an exponent, or a negative zero. -/
  | real
  | string (value : String)
  /-- A string with a lone surrogate. -/
  | brokenString
  | array (items : List Submitted)
  /-- A name with a lone surrogate is `none`. -/
  | object (fields : List (Option String × Submitted))

namespace Submitted

abbrev Reader (α : Type) := List Char → Option (α × List Char)

def isSpace (c : Char) : Bool := c = ' ' || c = '\t' || c = '\n' || c = '\r'

def skipSpace (text : List Char) : List Char := text.dropWhile isSpace

def hexDigit? (c : Char) : Option Nat :=
  let n := c.toNat
  if '0'.toNat ≤ n ∧ n ≤ '9'.toNat then some (n - '0'.toNat)
  else if 'a'.toNat ≤ n ∧ n ≤ 'f'.toNat then some (n - 'a'.toNat + 10)
  else if 'A'.toNat ≤ n ∧ n ≤ 'F'.toNat then some (n - 'A'.toNat + 10)
  else none

def codeUnit : Reader Nat
  | a::b::c::d::rest => do
    let a ← hexDigit? a
    let b ← hexDigit? b
    let c ← hexDigit? c
    let d ← hexDigit? d
    return (((a * 16 + b) * 16 + c) * 16 + d, rest)
  | _ => none

def isHighSurrogate (n : Nat) : Bool := 0xD800 ≤ n && n < 0xDC00

def isLowSurrogate (n : Nat) : Bool := 0xDC00 ≤ n && n < 0xE000

def escape : Reader (Option Char)
  | '"'::rest => some (some '"', rest)
  | '\\'::rest => some (some '\\', rest)
  | '/'::rest => some (some '/', rest)
  | 'b'::rest => some (some (Char.ofNat 8), rest)
  | 'f'::rest => some (some (Char.ofNat 12), rest)
  | 'n'::rest => some (some '\n', rest)
  | 'r'::rest => some (some '\r', rest)
  | 't'::rest => some (some '\t', rest)
  | 'u'::rest => do
    let (high, rest) ← codeUnit rest
    if isHighSurrogate high then
      match rest with
      | '\\' :: 'u' :: after =>
        let (low, after) ← codeUnit after
        if isLowSurrogate low then
          return (some (Char.ofNat (0x10000 + (high - 0xD800) * 0x400 + (low - 0xDC00))), after)
        else return (none, rest)
      | _ => return (none, rest)
    else if isLowSurrogate high then return (none, rest)
    else return (some (Char.ofNat high), rest)
  | _ => none

/-- The characters up to the closing quote, or `none` in their place if an
escape spells none. -/
def stringBody : Nat → Reader (Option (List Char))
  | 0, _ => none
  | _+1, [] => none
  | _+1, '"'::rest => some (some [], rest)
  | limit+1, '\\'::rest => do
    let (c, rest) ← escape rest
    let (cs, rest) ← stringBody limit rest
    return (do return (← c)::(← cs), rest)
  | limit+1, c::rest =>
    if c.toNat < 0x20 then none
    else do
      let (cs, rest) ← stringBody limit rest
      return (cs.map (c::·), rest)

def digits (text : List Char) : List Char × List Char := text.span Char.isDigit

def integerPart (text : List Char) : Option (List Char × List Char) :=
  match digits text with
  | ([], _) => none
  | ('0'::_::_, _) => none
  | found => some found

def fraction : List Char → Option (Bool × List Char)
  | '.'::rest =>
    match digits rest with
    | ([], _) => none
    | (_, rest) => some (true, rest)
  | rest => some (false, rest)

def exponentDigits (text : List Char) : Option (Bool × List Char) :=
  let unsigned :=
    match text with
    | '+'::rest => rest
    | '-'::rest => rest
    | rest => rest
  match digits unsigned with
  | ([], _) => none
  | (_, rest) => some (true, rest)

def exponent : List Char → Option (Bool × List Char)
  | 'e'::rest => exponentDigits rest
  | 'E'::rest => exponentDigits rest
  | rest => some (false, rest)

def magnitude (text : List Char) : Nat :=
  Decimal.value (text.map (fun c => UInt8.ofNat c.toNat))

def number (negative : Bool) : Reader Submitted := fun text => do
  let (whole, rest) ← integerPart text
  let (hasFraction, rest) ← fraction rest
  let (hasExponent, rest) ← exponent rest
  let n := magnitude whole
  if hasFraction || hasExponent || (negative && n == 0) then return (.real, rest)
  else return (.integer (if negative then -(n : Int) else n), rest)

def literal (word : List Char) (value : Submitted) : Reader Submitted := fun text =>
  if text.take word.length = word then some (value, text.drop word.length) else none

def elements {α : Type} (close : Char) (element : Reader α) : Nat → Reader (List α)
  | 0, _ => none
  | limit+1, text => do
    let (x, rest) ← element text
    match skipSpace rest with
    | ','::rest =>
      let (xs, rest) ← elements close element limit rest
      return (x::xs, rest)
    | c::rest => if c = close then return ([x], rest) else none
    | [] => none

def sequence {α : Type} (close : Char) (element : Reader α) (limit : Nat) : Reader (List α) :=
  fun text =>
    match skipSpace text with
    | [] => none
    | c::rest => if c = close then some ([], rest) else elements close element limit text

def field (value : Reader Submitted) : Reader (Option String × Submitted) := fun text =>
  match skipSpace text with
  | '"'::rest => do
    let (name, rest) ← stringBody (rest.length + 1) rest
    match skipSpace rest with
    | ':'::rest =>
      let (v, rest) ← value rest
      return ((name.map String.ofList, v), rest)
    | _ => none
  | _ => none

/-- One value. Every level of nesting takes at least one character. -/
def value : Nat → Reader Submitted
  | 0, _ => none
  | limit+1, text =>
    match skipSpace text with
    | 'n'::rest => literal ['u', 'l', 'l'] .null rest
    | 't'::rest => literal ['r', 'u', 'e'] (.bool true) rest
    | 'f'::rest => literal ['a', 'l', 's', 'e'] (.bool false) rest
    | '-'::rest => number true rest
    | '"'::rest => do
      let (content, rest) ← stringBody (rest.length + 1) rest
      match content with
      | some cs => return (.string (String.ofList cs), rest)
      | none => return (.brokenString, rest)
    | '['::rest => do
      let (items, rest) ← sequence ']' (value limit) (rest.length + 1) rest
      return (.array items, rest)
    | '\x7b'::rest => do
      let (fields, rest) ← sequence '\x7d' (field (value limit)) (rest.length + 1) rest
      return (.object fields, rest)
    | rest => number false rest

def ofText? (text : String) : Option Submitted := do
  let chars := text.toList
  let (v, rest) ← value (chars.length + 1) chars
  if skipSpace rest = [] then some v else none

def string? : Submitted → Option String
  | .string s => some s
  | _ => none

def int64? : Submitted → Option Int64
  | .integer n => Checked.ofInt? n
  | _ => none

def nullable {α : Type} (read : Submitted → Option α) : Submitted → Option (Option α)
  | .null => some none
  | v => (read v).map some

def unique? (name : String) (fields : List (String × Submitted)) :
    Option (Option Submitted) :=
  match fields.filter (fun f => f.1 == name) with
  | [] => some none
  | [f] => some (some f.2)
  | _ => none

def fields? (names : List String) : Submitted → Option (List (Option Submitted))
  | .object fields => do
    let named ← fields.mapM (fun (name, v) => name.map (·, v))
    names.mapM (fun name => unique? name named)
  | .array items => if items.length = names.length then some (items.map some) else none
  | _ => none

def required {α : Type} (read : Submitted → Option α) (v : Option Submitted) : Option α :=
  v.bind read

def optional {α : Type} (read : Submitted → Option α) : Option Submitted → Option (Option α)
  | none => some none
  | some v => nullable read v

end Submitted

end ChainState.Http
