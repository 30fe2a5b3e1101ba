import ChainState.Bytes
import ChainState.Bytes.Hex

/-!
# Byte strings of fixed length

Hashes, keys, seeds and signatures are byte strings whose length their role
fixes. They are ordered byte by byte. A string of another length is read as
the zero string.
-/

set_option autoImplicit false

namespace ChainState

inductive Role where
  | hash
  | publicKey
  | seed
  | signature
  deriving DecidableEq, Repr

def Role.size : Role → Nat
  | .signature => 64
  | _ => 32

def Role.name : Role → String
  | .hash => "hash"
  | .publicKey => "pubkey"
  | .seed => "seed"
  | .signature => "signature"

inductive FixedFault where
  | notHex
  | wrongLength
  deriving DecidableEq, Repr

def FixedFault.message (role : Role) : FixedFault → String
  | .notHex => "invalid " ++ role.name ++ " hex"
  | .wrongLength => "invalid " ++ role.name ++ " length"

structure FixedBytes (role : Role) where
  bytes : Bytes
  length_bytes : bytes.length = role.size
  deriving DecidableEq

abbrev Hash := FixedBytes .hash

abbrev PublicKey := FixedBytes .publicKey

abbrev Seed := FixedBytes .seed

abbrev Signature := FixedBytes .signature

namespace FixedBytes

variable {role : Role}

theorem ext {a b : FixedBytes role} (h : a.bytes = b.bytes) : a = b := by
  cases a
  cases b
  cases h
  rfl

def zero : FixedBytes role := ⟨List.replicate role.size 0, List.length_replicate⟩

def ofBytes (bytes : Bytes) : FixedBytes role := ⟨bytes.fixed role.size, bytes.length_fixed _⟩

def isZero (x : FixedBytes role) : Bool := x == zero

def hex (x : FixedBytes role) : String := Hex.encode x.bytes

def ofHex (text : Bytes) : Except FixedFault (FixedBytes role) :=
  match Hex.decode? text with
  | none => .error .notHex
  | some bytes =>
    if h : bytes.length = role.size then .ok ⟨bytes, h⟩ else .error .wrongLength

instance : Inhabited (FixedBytes role) := ⟨zero⟩

instance : Hashable (FixedBytes role) := ⟨fun x => hash x.bytes⟩

instance : Ord (FixedBytes role) := ⟨fun a b => compare a.bytes b.bytes⟩

theorem ofBytes_bytes (x : FixedBytes role) : ofBytes x.bytes = x :=
  ext (if_pos x.length_bytes)

theorem bytes_ofBytes {bytes : Bytes} (h : bytes.length = role.size) :
    (ofBytes bytes : FixedBytes role).bytes = bytes :=
  if_pos h

instance : Std.TransOrd (FixedBytes role) where
  eq_swap {a b} := @Std.OrientedCmp.eq_swap Bytes compare _ a.bytes b.bytes
  isLE_trans {a b c} := @Std.TransCmp.isLE_trans Bytes compare _ a.bytes b.bytes c.bytes

instance : Std.LawfulEqOrd (FixedBytes role) where
  compare_self {a} := @Std.ReflCmp.compare_self Bytes compare _ a.bytes
  eq_of_compare h := ext (@Std.LawfulEqCmp.eq_of_compare Bytes compare _ _ _ h)

end FixedBytes

def secretText : String := "SecretKey(..)"

end ChainState
