import ChainState.Crypto
import ChainState.Crypto.Ed25519
import ChainState.Crypto.Sha256

/-!
# The primitives that nodes run with
-/

set_option autoImplicit false

namespace ChainState.Crypto

instance standard : Crypto where
  digest := Sha256.digest
  publicKey := Ed25519.publicKey
  sign := Ed25519.sign
  verify := Ed25519.verify

end ChainState.Crypto
