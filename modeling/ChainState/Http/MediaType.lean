/-!
# Media types

A content type names a type and a subtype, and behind semicolons it may have
parameters. Blanks stand before a parameter and after a quoted value, and
nowhere else. The parameters are checked, and passed over.
-/

set_option autoImplicit false

namespace ChainState.Http

structure MediaType where
  type : String
  subtype : String
  /-- What follows the last plus sign of the subtype. -/
  suffix : Option String
  deriving DecidableEq

namespace MediaType

def tokenRanges : List (Nat × Nat) :=
  [(0x21, 0x21), (0x23, 0x27), (0x2A, 0x2B), (0x2D, 0x2E), (0x30, 0x39), (0x41, 0x5A),
    (0x5E, 0x7A), (0x7C, 0x7C), (0x7E, 0x7E)]

def isToken (c : Char) : Bool := tokenRanges.any (fun r => r.1 ≤ c.toNat && c.toNat ≤ r.2)

def isQuotable (c : Char) : Bool := 0x20 ≤ c.toNat && c.toNat ≤ 0x7E

inductive Place where
  /-- Before a name. -/
  | start
  | name
  /-- Right after an equals sign. -/
  | value
  | bare
  /-- Right after an opening quote. A value in quotes has at least one
  character, so that a quote does not close it here. -/
  | opened
  | quoted
  | closed
  deriving DecidableEq

def Place.step : Place → Char → Option Place
  | .start, c => if c = ' ' then some .start else if isToken c then some .name else none
  | .name, c => if c = '=' then some .value else if isToken c then some .name else none
  | .value, c => if c = '"' then some .opened else if isToken c then some .bare else none
  | .bare, c => if c = ';' then some .start else if isToken c then some .bare else none
  | .opened, c => if isQuotable c then some .quoted else none
  | .quoted, c => if c = '"' then some .closed else if isQuotable c then some .quoted else none
  | .closed, c => if c = ' ' then some .closed else if c = ';' then some .start else none

def Place.isFinal : Place → Bool
  | .start | .value | .bare | .closed => true
  | .name | .opened | .quoted => false

def areParameters (text : List Char) : Bool := (text.foldlM Place.step .start).any Place.isFinal

def lowered (text : List Char) : String := String.ofList (text.map Char.toLower)

/-- The media type of two tokens. A plus sign at the front of a subtype is
followed by no suffix. -/
def ofTokens (type name : List Char) : MediaType :=
  match name.reverse.dropWhile (· ≠ '+') with
  | _::c::before =>
    let suffix := (name.reverse.takeWhile (· ≠ '+')).reverse
    ⟨lowered type, lowered (c::before).reverse, some (lowered suffix)⟩
  | _ => ⟨lowered type, lowered name, none⟩

def ofString? (text : String) : Option MediaType :=
  let type := text.toList.takeWhile isToken
  match text.toList.dropWhile isToken with
  | '/'::rest =>
    let name := rest.takeWhile isToken
    if type = [] ∨ name = [] then none
    else
      match rest.dropWhile isToken with
      | [] => some (ofTokens type name)
      | ';'::parameters => if areParameters parameters then some (ofTokens type name) else none
      | _ => none
  | _ => none

def isJson (m : MediaType) : Bool := m.subtype == "json" || m.suffix == some "json"

end MediaType

end ChainState.Http
