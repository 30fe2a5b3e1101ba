import ChainState.Bytes
import ChainState.Checked

/-!
# Decimal numbers

Numbers are written without leading zeros, and negative ones after a minus
sign. A text is read as a number if it is at most one sign and then digits
alone.
-/

set_option autoImplicit false

namespace ChainState.Decimal

def digit (n : Nat) : UInt8 := UInt8.ofNat (n % 10 + 48)

def before (n : Nat) (rest : Bytes) : Bytes :=
  if n < 10 then digit n :: rest else before (n / 10) (digit n :: rest)
termination_by n

def ofNat (n : Nat) : Bytes := before n []

def ofInt : Int → Bytes
  | .ofNat n => ofNat n
  | .negSucc n => 0x2D :: ofNat (n + 1)

def isDigit (b : UInt8) : Bool := 0x30 ≤ b && b ≤ 0x39

def value (digits : Bytes) : Nat := digits.foldl (fun n b => 10 * n + (b.toNat - 48)) 0

def toNat? (text : Bytes) : Option Nat :=
  if text ≠ [] ∧ text.all isDigit then some (value text) else none

def toUnsigned? : Bytes → Option Nat
  | 0x2B::digits => toNat? digits
  | digits => toNat? digits

def toInt? : Bytes → Option Int
  | 0x2B::digits => (toNat? digits).map Int.ofNat
  | 0x2D::digits => (toNat? digits).map (fun n => -Int.ofNat n)
  | digits => (toNat? digits).map Int.ofNat

def toInt64? (text : Bytes) : Option Int64 := (toInt? text).bind Checked.ofInt?

end ChainState.Decimal
