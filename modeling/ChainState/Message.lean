import ChainState.Bencode
import ChainState.Bencode.Printer
import ChainState.Bencode.Reader
import ChainState.Crypto

/-!
# Messages between peers

A message is named by the hash of its encoding, which writes the timestamp as
a number.
-/

set_option autoImplicit false

namespace ChainState

structure Message.Content where
  timestamp : Int64
  sender : PublicKey
  receiver : PublicKey
  payload : Bytes
  deriving DecidableEq

namespace Message.Content

def toBencode (m : Content) : Bencode :=
  .record
    [(.ascii ['t'], .int m.timestamp),
     (.ascii ['s'], .bytes m.sender.bytes),
     (.ascii ['r'], .bytes m.receiver.bytes),
     (.ascii ['p'], .bytes m.payload)]

def encode (m : Content) : Bytes := m.toBencode.render

end Message.Content

section

variable [Crypto]

/-- A message carries the hash of its encoding. -/
structure Message extends Message.Content where
  hash : Hash := Crypto.digest toContent.encode
  hash_eq : hash = Crypto.digest toContent.encode := by rfl

namespace Message

@[ext] theorem ext {m n : Message} (h : m.toContent = n.toContent) : m = n := by
  obtain ⟨content, hash, rfl⟩ := m
  obtain ⟨content', hash', rfl⟩ := n
  cases h
  rfl

instance : DecidableEq Message := fun m n =>
  decidable_of_iff (m.toContent = n.toContent) ⟨ext, congrArg toContent⟩

def ofBencode (v : Bencode) : Message where
  timestamp := (v.intAt? (.ascii ['t'])).getD 0
  sender := .ofBytes (v.bytesAt (.ascii ['s']))
  receiver := .ofBytes (v.bytesAt (.ascii ['r']))
  payload := v.bytesAt (.ascii ['p'])

def decode (bytes : Bytes) : Except Bencode.ReadError Message :=
  (Bencode.decode bytes).map ofBencode

def describe (m : Message) : String :=
  "message hash: " ++ m.hash.hex
    ++ " timestamp: " ++ toString m.timestamp.toInt
    ++ " sender: " ++ m.sender.hex
    ++ " receiver: " ++ m.receiver.hex
    ++ " payload: " ++ Hex.encode m.payload

end Message

end

end ChainState
