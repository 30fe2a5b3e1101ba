/-!
# Checked arithmetic

Numbers of a chain are signed words. Arithmetic on them is done over the
integers, and the result is a word only if it fits.
-/

set_option autoImplicit false

namespace ChainState

inductive Overflow where
  | addition
  | subtraction
  | multiplication
  deriving DecidableEq, Repr

def Overflow.message : Overflow → String
  | .addition => "attempt to add with overflow"
  | .subtraction => "attempt to subtract with overflow"
  | .multiplication => "attempt to multiply with overflow"

namespace Checked

def ofInt? (n : Int) : Option Int64 :=
  if Int64.minValue.toInt ≤ n ∧ n ≤ Int64.maxValue.toInt then some (Int64.ofInt n) else none

def add? (a b : Int64) : Option Int64 := ofInt? (a.toInt + b.toInt)

def sub? (a b : Int64) : Option Int64 := ofInt? (a.toInt - b.toInt)

/-- The difference, or the limit it lies beyond. -/
def clampedSub (a b : Int64) : Int64 :=
  Int64.ofInt (max Int64.minValue.toInt (min Int64.maxValue.toInt (a.toInt - b.toInt)))

def add (a b : Int64) : Except Overflow Int64 :=
  match add? a b with
  | some c => .ok c
  | none => .error .addition

def sub (a b : Int64) : Except Overflow Int64 :=
  match sub? a b with
  | some c => .ok c
  | none => .error .subtraction

def succ? (a : Int64) : Option Int64 := add? a 1

theorem toInt_ofInt? {n : Int} {w : Int64} (h : ofInt? n = some w) : w.toInt = n := by
  rw [ofInt?] at h
  split at h
  · next hn =>
    obtain rfl := Option.some.inj h
    exact Int64.toInt_ofInt_of_le hn.1 (Int.lt_add_one_of_le hn.2)
  · cases h

theorem toInt_add? {a b c : Int64} (h : add? a b = some c) : c.toInt = a.toInt + b.toInt :=
  toInt_ofInt? h

theorem toInt_sub? {a b c : Int64} (h : sub? a b = some c) : c.toInt = a.toInt - b.toInt :=
  toInt_ofInt? h

theorem toInt_succ? {a b : Int64} (h : succ? a = some b) : b.toInt = a.toInt + 1 :=
  toInt_ofInt? h

end Checked

end ChainState
