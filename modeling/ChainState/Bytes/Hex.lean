import ChainState.Bytes

/-!
# Hexadecimal text

Bytes are written as two lower-case digits each. A text is read in either
case; its length is looked at before its characters, and the first character
that is no digit is named together with its position.
-/

set_option autoImplicit false

namespace ChainState.Hex

inductive ReadError where
  | oddLength
  | invalidCharacter (byte : UInt8) (position : Nat)
  deriving DecidableEq, Repr

def digit (n : Nat) : Char :=
  if n < 10 then Char.ofNat (n + '0'.toNat) else Char.ofNat (n - 10 + 'a'.toNat)

def encodeChars : Bytes → List Char
  | [] => []
  | b::rest => digit (b.toNat / 16) :: digit (b.toNat % 16) :: encodeChars rest

def encode (bytes : Bytes) : String := String.ofList (encodeChars bytes)

def digitValue? (b : UInt8) : Option Nat :=
  let n := b.toNat
  if '0'.toNat ≤ n ∧ n ≤ '9'.toNat then some (n - '0'.toNat)
  else if 'a'.toNat ≤ n ∧ n ≤ 'f'.toNat then some (n - 'a'.toNat + 10)
  else if 'A'.toNat ≤ n ∧ n ≤ 'F'.toNat then some (n - 'A'.toNat + 10)
  else none

def digitAt (b : UInt8) (position : Nat) : Except ReadError Nat :=
  match digitValue? b with
  | some n => .ok n
  | none => .error (.invalidCharacter b position)

def decodePairs (position : Nat) : Bytes → Except ReadError Bytes
  | high::low::rest => do
    let h ← digitAt high position
    let l ← digitAt low (position + 1)
    let tail ← decodePairs (position + 2) rest
    return UInt8.ofNat (h * 16 + l) :: tail
  | _ => .ok []

/-- Length and positions count the bytes of the text. -/
def decode (text : Bytes) : Except ReadError Bytes :=
  if text.length % 2 = 1 then .error .oddLength else decodePairs 0 text

def decode? (text : Bytes) : Option Bytes := (decode text).toOption

def codePoint (n : Nat) : String := String.ofList (Nat.toDigits 16 n)

/-- A byte is quoted as the character with its code point; quotes, control
characters, the no-break space and the soft hyphen are escaped. -/
def quoted (b : UInt8) : String :=
  let n := b.toNat
  let body :=
    if n = 0 then "\\0"
    else if n = 9 then "\\t"
    else if n = 10 then "\\n"
    else if n = 13 then "\\r"
    else if n = '\''.toNat then "\\'"
    else if n = '\\'.toNat then "\\\\"
    else if n < 32 ∨ (127 ≤ n ∧ n ≤ 160) ∨ n = 173 then "\\u\x7b" ++ codePoint n ++ "\x7d"
    else String.singleton (Char.ofNat n)
  "'" ++ body ++ "'"

def ReadError.message : ReadError → String
  | .oddLength => "Odd number of digits"
  | .invalidCharacter b position =>
    "Invalid character " ++ quoted b ++ " at position " ++ toString position

end ChainState.Hex
