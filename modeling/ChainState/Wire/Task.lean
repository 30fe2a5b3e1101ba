import ChainState.Bencode.Order
import ChainState.Wire.Payload

/-!
# The task queue

A task is an entry to send to a peer, or received from one. Tasks are ordered
by timestamp, then by data type, then by peer, and last by their encoding.
-/

set_option autoImplicit false

namespace ChainState

structure Task where
  dataType : Int64
  peer : PublicKey
  entry : Bencode
  timestamp : Int64

namespace Task

def ofPayload [Crypto] (peer : PublicKey) (payload : Payload) (timestamp : Int64) : Task :=
  ⟨payload.dataType, peer, payload.toBencode, timestamp⟩

def cmp (a b : Task) : Ordering :=
  (compare a.timestamp b.timestamp).then
    ((compare a.dataType b.dataType).then
      ((compare a.peer b.peer).then (compare a.entry.render b.entry.render)))

instance : Ord Task := ⟨cmp⟩

end Task

end ChainState
