import ChainState.Bytes.Fixed

/-!
# The cryptographic primitives of a chain

Blocks, accounts and requests need a digest and a signature scheme, and
nothing else about them. The ledger is stated over any such primitives, so
what holds of it rests on no property of a particular hash or curve beyond
those a statement names.
-/

set_option autoImplicit false

namespace ChainState

class Crypto where
  digest : Bytes → Hash
  publicKey : Seed → PublicKey
  sign : Seed → Bytes → Signature
  verify : PublicKey → Bytes → Signature → Bool

namespace Crypto

/-- Every signature verifies under the key of the seed that made it. -/
def AcceptsOwnSignatures [Crypto] : Prop :=
  ∀ (seed : Seed) (message : Bytes),
    verify (publicKey seed) message (sign seed message) = true

end Crypto

end ChainState
