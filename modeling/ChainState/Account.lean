import ChainState.Bencode
import ChainState.Bencode.Printer
import ChainState.Bencode.Reader

/-!
# Accounts

An account is what one public key holds on one chain after a block. Nothing
here bounds the numbers; the rules on them apply where blocks are checked.
-/

set_option autoImplicit false

namespace ChainState

structure Account where
  balance : Int64
  nonce : Int64
  noteTimestamp : Int64
  effectivePower : Int64
  height : Int64
  deriving DecidableEq, Repr

namespace Account

def absent : Account := ⟨0, 0, 0, 0, 0⟩

instance : Inhabited Account := ⟨absent⟩

def isEmpty (a : Account) : Bool := a.balance == 0 && a.nonce == 0

def toBencode (a : Account) : Bencode :=
  .record
    [(.ascii ['b'], .bytes (.ofInt64 a.balance)),
     (.ascii ['n'], .bytes (.ofInt64 a.nonce)),
     (.ascii ['t'], .bytes (.ofInt64 a.noteTimestamp)),
     (.ascii ['p'], .bytes (.ofInt64 a.effectivePower)),
     (.ascii ['h'], .bytes (.ofInt64 a.height))]

def ofBencode (v : Bencode) : Account where
  balance := v.int64At (.ascii ['b'])
  nonce := v.int64At (.ascii ['n'])
  noteTimestamp := v.int64At (.ascii ['t'])
  effectivePower := v.int64At (.ascii ['p'])
  height := v.int64At (.ascii ['h'])

def encode (a : Account) : Bytes := a.toBencode.render

def decode (bytes : Bytes) : Except Bencode.ReadError Account :=
  (Bencode.decode bytes).map ofBencode

end Account

end ChainState
