/-!
# Byte strings

A byte string is a list of bytes. Numbers are written with a fixed number of
bytes, least significant first, and read back from a string of any length:
missing bytes count as zero, and bytes past the width are not looked at.
Writing and then reading gives the number back.
-/

set_option autoImplicit false

namespace ChainState

abbrev Bytes := List UInt8

namespace Bytes

def ofString (text : String) : Bytes := text.toUTF8.toList

def count : Nat → Nat
  | 0 => 1
  | width+1 => 256 * count width

def littleEndian : Nat → Nat → Bytes
  | 0, _ => []
  | width+1, n => UInt8.ofNat (n % 256) :: littleEndian width (n / 256)

def ofLittleEndian : Bytes → Nat
  | [] => 0
  | b::rest => b.toNat + 256 * ofLittleEndian rest

def bigEndian (width n : Nat) : Bytes := (littleEndian width n).reverse

def ofBigEndian (bytes : Bytes) : Nat := ofLittleEndian bytes.reverse

theorem length_littleEndian (width n : Nat) : (littleEndian width n).length = width := by
  induction width generalizing n with
  | zero => rfl
  | succ width ih => simp [littleEndian, ih]

theorem length_bigEndian (width n : Nat) : (bigEndian width n).length = width := by
  simp [bigEndian, length_littleEndian]

theorem ofLittleEndian_littleEndian (width n : Nat) :
    ofLittleEndian (littleEndian width n) = n % count width := by
  induction width generalizing n with
  | zero => simp [littleEndian, ofLittleEndian, count, Nat.mod_one]
  | succ width ih =>
    rw [littleEndian, ofLittleEndian, ih, count, Nat.mod_mul,
      UInt8.toNat_ofNat_of_lt' (Nat.mod_lt n (by decide))]

theorem ofBigEndian_bigEndian (width n : Nat) :
    ofBigEndian (bigEndian width n) = n % count width := by
  simp [ofBigEndian, bigEndian, ofLittleEndian_littleEndian]

/-- The bytes themselves if there are `size` of them, and else zeros. -/
def fixed (size : Nat) (bytes : Bytes) : Bytes :=
  if bytes.length = size then bytes else List.replicate size 0

theorem length_fixed (size : Nat) (bytes : Bytes) : (fixed size bytes).length = size := by
  unfold fixed
  split
  · next h => exact h
  · exact List.length_replicate

def ofUInt64 (word : UInt64) : Bytes := littleEndian 8 word.toNat

def toUInt64 (bytes : Bytes) : UInt64 := UInt64.ofNat (ofLittleEndian (bytes.take 8))

def ofInt64 (number : Int64) : Bytes := ofUInt64 number.toUInt64

def toInt64 (bytes : Bytes) : Int64 := (toUInt64 bytes).toInt64

def ofInt32 (number : Int32) : Bytes := littleEndian 4 number.toUInt32.toNat

def toInt32 (bytes : Bytes) : Int32 := (UInt32.ofNat (ofLittleEndian (bytes.take 4))).toInt32

theorem length_ofUInt64 (word : UInt64) : (ofUInt64 word).length = 8 :=
  length_littleEndian 8 _

theorem length_ofInt64 (number : Int64) : (ofInt64 number).length = 8 :=
  length_littleEndian 8 _

theorem length_ofInt32 (number : Int32) : (ofInt32 number).length = 4 :=
  length_littleEndian 4 _

theorem toUInt64_ofUInt64 (word : UInt64) : toUInt64 (ofUInt64 word) = word := by
  have h : (ofUInt64 word).take 8 = ofUInt64 word :=
    List.take_of_length_le (Nat.le_of_eq (length_ofUInt64 word))
  have hw : word.toNat < count 8 := word.toNat_lt
  rw [toUInt64, h, ofUInt64, ofLittleEndian_littleEndian, Nat.mod_eq_of_lt hw,
    UInt64.ofNat_toNat]

theorem toInt64_ofInt64 (number : Int64) : toInt64 (ofInt64 number) = number := by
  simp [toInt64, ofInt64, toUInt64_ofUInt64]

theorem toInt32_ofInt32 (number : Int32) : toInt32 (ofInt32 number) = number := by
  have h : (ofInt32 number).take 4 = ofInt32 number :=
    List.take_of_length_le (Nat.le_of_eq (length_ofInt32 number))
  have hw : number.toUInt32.toNat < count 4 := number.toUInt32.toNat_lt
  rw [toInt32, h, ofInt32, ofLittleEndian_littleEndian, Nat.mod_eq_of_lt hw,
    UInt32.ofNat_toNat]
  simp

end Bytes

end ChainState
