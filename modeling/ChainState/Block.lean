import ChainState.Account
import ChainState.Transaction

/-!
# Blocks

A block holds one transaction, and what its miner, the sender and the
receiver hold after it, so that the state of an account is read off a single
block. The hash covers the signed encoding.
-/

set_option autoImplicit false

namespace ChainState

structure Holding where
  balance : Int64
  nonce : Int64
  deriving DecidableEq, Repr

def Holding.zero : Holding := ⟨0, 0⟩

/-- What the three accounts that a block names hold after it. -/
structure PostStates where
  miner : Holding
  sender : Holding
  receiver : Holding
  deriving DecidableEq, Repr

def PostStates.zero : PostStates := ⟨.zero, .zero, .zero⟩

structure Block.Content where
  version : Version
  chain : Bytes
  timestamp : Int64
  height : Int64
  parent : Hash
  baseTarget : UInt64
  cumulativeDifficulty : UInt64
  generationSignature : Hash
  transaction : Transaction
  miner : PublicKey
  states : PostStates
  signature : Signature
  deriving DecidableEq

namespace Block.Content

def fields (b : Content) : List (Label × Bencode) :=
  [(.ascii ['v'], .bytes (.ofInt32 b.version.id)),
   (.ascii ['i'], .bytes b.chain),
   (.ascii ['t'], .bytes (.ofInt64 b.timestamp)),
   (.ascii ['n'], .bytes (.ofInt64 b.height)),
   (.ascii ['h'], .bytes b.parent.bytes),
   (.ascii ['b'], .bytes (.ofUInt64 b.baseTarget)),
   (.ascii ['d'], .bytes (.ofUInt64 b.cumulativeDifficulty)),
   (.ascii ['g'], .bytes b.generationSignature.bytes),
   (.ascii ['x'], b.transaction.toBencode),
   (.ascii ['m'], .bytes b.miner.bytes),
   (.ascii ['m', 'b'], .bytes (.ofInt64 b.states.miner.balance)),
   (.ascii ['m', 'n'], .bytes (.ofInt64 b.states.miner.nonce)),
   (.ascii ['s', 'b'], .bytes (.ofInt64 b.states.sender.balance)),
   (.ascii ['s', 'n'], .bytes (.ofInt64 b.states.sender.nonce)),
   (.ascii ['r', 'b'], .bytes (.ofInt64 b.states.receiver.balance)),
   (.ascii ['r', 'n'], .bytes (.ofInt64 b.states.receiver.nonce))]

def toBencode (b : Content) : Bencode :=
  .record (b.fields ++ [Transaction.signatureField b.signature])

def unsignedEncode (b : Content) : Bytes := (Bencode.record b.fields).render

def encode (b : Content) : Bytes := b.toBencode.render

end Block.Content

section

variable [Crypto]

/-- A block carries the hash of its encoding. -/
structure Block extends Block.Content where
  hash : Hash := Crypto.digest toContent.encode
  hash_eq : hash = Crypto.digest toContent.encode := by rfl

namespace Block

def hashed (content : Content) : Block := { content with }

@[simp] theorem toContent_hashed (content : Content) : (hashed content).toContent = content := rfl

@[ext] theorem ext {a b : Block} (h : a.toContent = b.toContent) : a = b := by
  obtain ⟨content, hash, rfl⟩ := a
  obtain ⟨content', hash', rfl⟩ := b
  cases h
  rfl

instance : DecidableEq Block := fun a b =>
  decidable_of_iff (a.toContent = b.toContent) ⟨ext, congrArg toContent⟩

def sign (b : Block) (seed : Seed) : Block :=
  hashed { b.toContent with signature := Crypto.sign seed b.unsignedEncode }

def verifies (b : Block) : Bool := Crypto.verify b.miner b.unsignedEncode b.signature

def ofBencode (v : Bencode) : Block where
  version := .ofId (v.int32At (.ascii ['v']))
  chain := v.bytesAt (.ascii ['i'])
  timestamp := v.int64At (.ascii ['t'])
  height := v.int64At (.ascii ['n'])
  parent := .ofBytes (v.bytesAt (.ascii ['h']))
  baseTarget := v.uint64At (.ascii ['b'])
  cumulativeDifficulty := v.uint64At (.ascii ['d'])
  generationSignature := .ofBytes (v.bytesAt (.ascii ['g']))
  transaction := ((v.field? (.ascii ['x'])).map Transaction.ofBencode).getD .blank
  miner := .ofBytes (v.bytesAt (.ascii ['m']))
  states :=
    { miner := ⟨v.int64At (.ascii ['m', 'b']), v.int64At (.ascii ['m', 'n'])⟩
      sender := ⟨v.int64At (.ascii ['s', 'b']), v.int64At (.ascii ['s', 'n'])⟩
      receiver := ⟨v.int64At (.ascii ['r', 'b']), v.int64At (.ascii ['r', 'n'])⟩ }
  signature := .ofBytes (v.bytesAt (.ascii ['s', 'i', 'g']))

def decode (bytes : Bytes) : Except Bencode.ReadError Block :=
  (Bencode.decode bytes).map ofBencode

/-- A block without a parent has the zero hash in its place. -/
def isGenesis (b : Block) : Bool := b.parent.isZero

/-- The accounts whose state the block carries: the miner's, and for a
transfer the sender's and the receiver's. Each is listed once. -/
def affected (b : Block) : List PublicKey :=
  if b.transaction.isTransfer then
    [b.transaction.sender, b.transaction.receiver].foldl
      (fun keys pk => if pk ∈ keys then keys else keys ++ [pk]) [b.miner]
  else [b.miner]

/-- What `pk` holds after the block. Where one key fills several roles, the
state as sender counts before that as receiver, and this before that as
miner. -/
def holding? (b : Block) (pk : PublicKey) : Option Holding :=
  if b.transaction.isTransfer ∧ pk = b.transaction.sender then some b.states.sender
  else if b.transaction.isTransfer ∧ pk = b.transaction.receiver then some b.states.receiver
  else if pk = b.miner then some b.states.miner
  else none

def account? (b : Block) (pk : PublicKey) : Option Account :=
  (b.holding? pk).map fun held =>
    { balance := held.balance
      nonce := held.nonce
      noteTimestamp := b.timestamp
      effectivePower := 0
      height := b.height }

def describe (b : Block) : String :=
  "block hash: " ++ b.hash.hex
    ++ " chain_id: " ++ Hex.encode b.chain
    ++ " number: " ++ toString b.height.toInt
    ++ " previous: " ++ b.parent.hex
    ++ " base_target: " ++ toString b.baseTarget.toNat
    ++ " cumulative_difficulty: " ++ toString b.cumulativeDifficulty.toNat
    ++ " miner: " ++ b.miner.hex

end Block

end

end ChainState
