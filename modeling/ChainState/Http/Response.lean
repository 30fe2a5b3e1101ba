import ChainState.Block
import ChainState.Http.Json

/-!
# Responses

A response is a status with a text or a JSON value. Byte strings appear in
JSON as hexadecimal text.
-/

set_option autoImplicit false

namespace ChainState.Http

inductive Body where
  | text (text : String)
  | json (value : Json)
  /-- The request could not be read. How this is worded is not fixed. -/
  | unreadable

structure Response where
  status : Nat
  body : Body

namespace Response

def plain (status : Nat) (text : String) : Response := ⟨status, .text text⟩

def ok (fields : List (String × Json)) : Response := ⟨200, .json (.object fields)⟩

def unreadable : Response := ⟨400, .unreadable⟩

def notFound : Response := plain 404 ""

end Response

def hexText (bytes : Bytes) : Json := .string (Hex.encode bytes)

def fixedText {role : Role} (x : FixedBytes role) : Json := .string x.hex

def transactionJson (t : Transaction) : Json :=
  .object
    [("hash", .ofOption fixedText t.hash),
     ("tx_type", .int t.kind.id.toInt),
     ("timestamp", .number t.timestamp),
     ("sender", fixedText t.sender),
     ("receiver", if t.isTransfer then fixedText t.receiver else .null),
     ("nonce", .number t.nonce),
     ("fee", .number t.fee),
     ("amount", .number t.amount),
     ("payload", hexText t.payload)]

def accountFields (chain : Bytes) (pk : PublicKey) (a : Account) : List (String × Json) :=
  [("chain_id", hexText chain),
   ("public_key", fixedText pk),
   ("balance", .number a.balance),
   ("nonce", .number a.nonce),
   ("note_timestamp", .number a.noteTimestamp),
   ("effective_power", .number a.effectivePower),
   ("block_number", .number a.height)]

section

variable [Crypto]

def blockFields (b : Block) : List (String × Json) :=
  [("hash", fixedText b.hash),
   ("version", .int b.version.id.toInt),
   ("chain_id", hexText b.chain),
   ("timestamp", .number b.timestamp),
   ("block_number", .number b.height),
   ("previous_block_root", fixedText b.parent),
   ("base_target", .word b.baseTarget),
   ("cumulative_difficulty", .word b.cumulativeDifficulty),
   ("generation_signature", fixedText b.generationSignature),
   ("miner", fixedText b.miner),
   ("miner_balance", .number b.states.miner.balance),
   ("miner_nonce", .number b.states.miner.nonce),
   ("sender_balance", .number b.states.sender.balance),
   ("sender_nonce", .number b.states.sender.nonce),
   ("receiver_balance", .number b.states.receiver.balance),
   ("receiver_nonce", .number b.states.receiver.nonce),
   ("tx", transactionJson b.transaction),
   ("encoded", hexText b.encode)]

end

end ChainState.Http
