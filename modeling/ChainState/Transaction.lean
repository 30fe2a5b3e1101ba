import ChainState.Bencode
import ChainState.Bencode.Printer
import ChainState.Bencode.Reader
import ChainState.Crypto

/-!
# Transactions

A transaction moves value from a sender to a receiver, or is a note that
moves none. Its kind decides which fields its encoding holds. The signature
covers the encoding without the signature; the hash covers the whole, and is
there once the transaction has been signed or read.
-/

set_option autoImplicit false

namespace ChainState

/-- Versions of blocks and transactions: the one in force, or one that is
known by its id alone. -/
inductive Version where
  | current
  | unknown (id : Int32)
  deriving DecidableEq, Repr

namespace Version

def id : Version → Int32
  | current => 0
  | unknown id => id

def ofId (id : Int32) : Version := if id = 0 then current else unknown id

def name : Version → String
  | current => "V1"
  | unknown id => "Unknown(" ++ toString id.toInt ++ ")"

@[simp] theorem id_ofId (id : Int32) : (ofId id).id = id := by
  unfold ofId
  split
  · next h => exact h.symm
  · rfl

theorem ofId_ne (id : Int32) : ofId id ≠ unknown 0 := by
  unfold ofId
  split
  · exact Version.noConfusion
  · next h => exact fun he => h (unknown.inj he)

/-- The id 0 is that of the version in force, and of an unknown one. -/
theorem ofId_id_eq_iff {v : Version} : ofId v.id = v ↔ v ≠ unknown 0 := by
  cases v with
  | current => decide
  | unknown id => by_cases h : id = 0 <;> simp [ofId, Version.id, h]

end Version

structure TransactionKind where
  id : Int32
  deriving DecidableEq, Repr

namespace TransactionKind

def note : TransactionKind := ⟨0⟩

def transfer : TransactionKind := ⟨1⟩

def name (k : TransactionKind) : String :=
  if k = note then "Note"
  else if k = transfer then "Transfer"
  else "Unknown(" ++ toString k.id.toInt ++ ")"

end TransactionKind

structure Transaction where
  chain : Bytes
  version : Version
  kind : TransactionKind
  timestamp : Int64
  sender : PublicKey
  receiver : PublicKey
  nonce : Int64
  fee : Int64
  amount : Int64
  payload : Bytes
  signature : Signature
  hash : Option Hash
  deriving DecidableEq

namespace Transaction

def blank : Transaction where
  chain := []
  version := .current
  kind := .note
  timestamp := 0
  sender := .zero
  receiver := .zero
  nonce := 0
  fee := 0
  amount := 0
  payload := []
  signature := .zero
  hash := none

instance : Inhabited Transaction := ⟨blank⟩

def note (chain : Bytes) (timestamp : Int64) (sender : PublicKey) (payload : Bytes) :
    Transaction :=
  { blank with chain, timestamp, sender, payload }

def transfer (chain : Bytes) (timestamp : Int64) (sender receiver : PublicKey)
    (nonce fee amount : Int64) (payload : Bytes) : Transaction :=
  { blank with
    kind := .transfer, chain, timestamp, sender, receiver, nonce, fee, amount, payload }

def isTransfer (t : Transaction) : Bool := t.kind == .transfer

def transferFields (t : Transaction) : List (Label × Bencode) :=
  if t.isTransfer then
    [(.ascii ['r'], .bytes t.receiver.bytes),
     (.ascii ['n'], .bytes (.ofInt64 t.nonce)),
     (.ascii ['f'], .bytes (.ofInt64 t.fee)),
     (.ascii ['a'], .bytes (.ofInt64 t.amount))]
  else []

def fields (t : Transaction) : List (Label × Bencode) :=
  [(.ascii ['i'], .bytes t.chain),
   (.ascii ['v'], .bytes (.ofInt32 t.version.id)),
   (.ascii ['e'], .bytes (.ofInt32 t.kind.id)),
   (.ascii ['t'], .bytes (.ofInt64 t.timestamp)),
   (.ascii ['s'], .bytes t.sender.bytes)] ++
  t.transferFields ++
  [(.ascii ['p'], .bytes t.payload)]

def signatureField (signature : Signature) : Label × Bencode :=
  (.ascii ['s', 'i', 'g'], .bytes signature.bytes)

def toBencode (t : Transaction) : Bencode :=
  .record (t.fields ++ [signatureField t.signature])

def unsignedEncode (t : Transaction) : Bytes := (Bencode.record t.fields).render

def encode (t : Transaction) : Bytes := t.toBencode.render

section

variable [Crypto]

def hashed (t : Transaction) : Transaction := { t with hash := some (Crypto.digest t.encode) }

def sign (t : Transaction) (seed : Seed) : Transaction :=
  { t with signature := Crypto.sign seed t.unsignedEncode }.hashed

def verifies (t : Transaction) : Bool :=
  Crypto.verify t.sender t.unsignedEncode t.signature

def ofBencode (v : Bencode) : Transaction :=
  Transaction.hashed {
    chain := v.bytesAt (.ascii ['i'])
    version := .ofId (v.int32At (.ascii ['v']))
    kind := ⟨v.int32At (.ascii ['e'])⟩
    timestamp := v.int64At (.ascii ['t'])
    sender := .ofBytes (v.bytesAt (.ascii ['s']))
    receiver := .ofBytes (v.bytesAt (.ascii ['r']))
    nonce := v.int64At (.ascii ['n'])
    fee := v.int64At (.ascii ['f'])
    amount := v.int64At (.ascii ['a'])
    payload := v.bytesAt (.ascii ['p'])
    signature := .ofBytes (v.bytesAt (.ascii ['s', 'i', 'g']))
    hash := none }

def decode (bytes : Bytes) : Except Bencode.ReadError Transaction :=
  (Bencode.decode bytes).map ofBencode

end

def describe (t : Transaction) : String :=
  "tx chain_id: " ++ Hex.encode t.chain
    ++ " type: " ++ t.kind.name
    ++ " timestamp: " ++ toString t.timestamp.toInt
    ++ " sender: " ++ t.sender.hex
    ++ " receiver: " ++ t.receiver.hex
    ++ " nonce: " ++ toString t.nonce.toInt
    ++ " amount: " ++ toString t.amount.toInt
    ++ " fee: " ++ toString t.fee.toInt
    ++ " hash: " ++ (t.hash.map FixedBytes.hex).getD ""

end Transaction

end ChainState
