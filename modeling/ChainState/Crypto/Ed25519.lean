import ChainState.Bytes.Fixed
import ChainState.Crypto.Sha512

/-!
# Ed25519

Points of the twisted Edwards curve `-x² + y² = 1 + d x² y²` over the
integers modulo `p`, in extended coordinates. The addition law is complete,
so it also doubles. A signature is accepted if its scalar is reduced and the
point it commits to, recomputed and compressed, gives the same bytes.
-/

set_option autoImplicit false

namespace ChainState.Ed25519

def p : Nat := 0x7fffffffffffffffffffffffffffffffffffffffffffffffffffffffffffffed

def order : Nat := 0x1000000000000000000000000000000014def9dea2f79cd65812631a5cf5d3ed

def powMod (m : Nat) : Nat → Nat → Nat → Nat
  | 0, _, _ => 1 % m
  | bits+1, base, exponent =>
    let square := powMod m bits (base * base % m) (exponent / 2)
    if exponent % 2 = 1 then square * base % m else square

def pow (base exponent : Nat) : Nat := powMod p 256 (base % p) exponent

def inverse (x : Nat) : Nat := pow x (p - 2)

def sub (x y : Nat) : Nat := (x + (p - y % p)) % p

def neg (x : Nat) : Nat := (p - x % p) % p

def d : Nat := neg (121665 * inverse 121666 % p)

def rootOfMinusOne : Nat := pow 2 ((p - 1) / 4)

structure Point where
  x : Nat
  y : Nat
  z : Nat
  t : Nat

def Point.identity : Point := ⟨0, 1, 1, 0⟩

def Point.add (twiceD : Nat) (q r : Point) : Point :=
  let a := sub q.y q.x * sub r.y r.x % p
  let b := (q.y + q.x) * (r.y + r.x) % p
  let c := q.t * twiceD % p * r.t % p
  let e := 2 * q.z * r.z % p
  let f := sub b a
  let g := sub e c
  let h := e + c
  let i := b + a
  ⟨f * g % p, h * i % p, g * h % p, f * i % p⟩

def Point.neg (q : Point) : Point := ⟨Ed25519.neg q.x, q.y, q.z, Ed25519.neg q.t⟩

def twiceD : Nat := 2 * d % p

def Point.mulBits : Nat → Nat → Point → Point → Point
  | 0, _, _, sum => sum
  | bits+1, scalar, q, sum =>
    let sum := if scalar % 2 = 1 then Point.add twiceD sum q else sum
    mulBits bits (scalar / 2) (Point.add twiceD q q) sum

def Point.mul (scalar : Nat) (q : Point) : Point := mulBits 256 scalar q .identity

def Point.ofAffine (x y : Nat) : Point := ⟨x, y, 1, x * y % p⟩

def evenRoot? (u v : Nat) : Option Nat :=
  let v3 := v * v % p * v % p
  let v7 := v3 * v3 % p * v % p
  let r := u * v3 % p * pow (u * v7 % p) ((p - 5) / 8) % p
  let even (x : Nat) : Nat := if x % 2 = 1 then neg x else x
  let check := v * (r * r % p) % p
  if check = u % p then some (even r)
  else if check = neg u then some (even (r * rootOfMinusOne % p))
  else none

def signBit : Nat := 0x8000000000000000000000000000000000000000000000000000000000000000

/-- The lowest 255 bits give `y`, taken modulo the field's size; the highest
bit chooses between the two values of `x`. -/
def Point.decompress? (bytes : Bytes) : Option Point :=
  let n := Bytes.ofLittleEndian bytes
  let y := n % signBit % p
  let y2 := y * y % p
  match evenRoot? (sub y2 1) ((d * y2 + 1) % p) with
  | none => none
  | some x => some (.ofAffine (if n / signBit % 2 = 1 then Ed25519.neg x else x) y)

def Point.compress (q : Point) : Bytes :=
  let zinv := inverse q.z
  let x := q.x * zinv % p
  let y := q.y * zinv % p
  Bytes.littleEndian 32 (y + x % 2 * signBit)

theorem Point.length_compress (q : Point) : q.compress.length = 32 :=
  Bytes.length_littleEndian 32 _

def basePoint : Point :=
  .ofAffine 15112221349535400772501151409588531511454012693041857206046113283949847762202
    46316835694926478169428394003475163141307993866256225615783033603165251855960

/-- The secret scalar: bits 0 to 2 and 255 are clear, bit 254 is set. -/
def clamp (bytes : Bytes) : Nat :=
  let n := Bytes.ofLittleEndian bytes
  n % (signBit / 2) / 8 * 8 + signBit / 2

def secretScalar (seed : Seed) : Nat := clamp ((Sha512.digest seed.bytes).take 32)

def publicKey (seed : Seed) : PublicKey :=
  let a := Point.mul (secretScalar seed) basePoint
  ⟨a.compress, a.length_compress⟩

def challenge (commitment key message : Bytes) : Nat :=
  Bytes.ofLittleEndian (Sha512.digest (commitment ++ key ++ message)) % order

def sign (seed : Seed) (message : Bytes) : Signature :=
  let expanded := Sha512.digest seed.bytes
  let s := clamp (expanded.take 32)
  let nonce := Bytes.ofLittleEndian (Sha512.digest (expanded.drop 32 ++ message)) % order
  let commitment := (Point.mul nonce basePoint).compress
  let k := challenge commitment (publicKey seed).bytes message
  FixedBytes.ofBytes (commitment ++ Bytes.littleEndian 32 ((nonce + k * s) % order))

def verify (key : PublicKey) (message : Bytes) (signature : Signature) : Bool :=
  let commitment := signature.bytes.take 32
  let s := Bytes.ofLittleEndian (signature.bytes.drop 32)
  match Point.decompress? key.bytes with
  | none => false
  | some a =>
    let k := challenge commitment key.bytes message
    let recomputed :=
      Point.add twiceD (Point.mul s basePoint) (Point.mul k a.neg)
    s < order && recomputed.compress == commitment

end ChainState.Ed25519
