import ChainState.Bytes.Fixed

/-!
# Storage keys

Every record of a repository has a key. Its byte form is a short prefix for
the kind of record, followed by the parts, each after its length in four
bytes. Heights are written with the highest byte first.
-/

set_option autoImplicit false

namespace ChainState

inductive Key where
  | block (hash : Hash)
  | links (hash : Hash)
  | tip (chain : Bytes)
  | tail (chain : Bytes)
  | span (chain : Bytes) (account : PublicKey)
  | height (chain : Bytes) (number : Int64)
  | chains
  deriving DecidableEq, Hashable

namespace Key

def part (bytes : Bytes) : Bytes := Bytes.bigEndian 4 bytes.length ++ bytes

def compose (table : Bytes) (parts : List Bytes) : Bytes := table ++ parts.flatMap part

def encode : Key → Bytes
  | .block hash => compose (Bytes.ofString "blk") [hash.bytes]
  | .links hash => compose (Bytes.ofString "lnk") [hash.bytes]
  | .tip chain => compose (Bytes.ofString "tip") [chain]
  | .tail chain => compose (Bytes.ofString "tail") [chain]
  | .span chain account => compose (Bytes.ofString "acc") [chain, account.bytes]
  | .height chain number =>
    compose (Bytes.ofString "idx") [chain, Bytes.bigEndian 8 number.toUInt64.toNat]
  | .chains => compose (Bytes.ofString "chains") []

end Key

end ChainState
