import ChainState.Bencode
import ChainState.Bencode.Printer
import ChainState.Bytes.Fixed

/-!
# Votes

A vote names the block that a peer takes for the best tip.
-/

set_option autoImplicit false

namespace ChainState

structure Vote where
  block : Hash
  height : Int64
  deriving DecidableEq

namespace Vote

def toBencode (v : Vote) : Bencode :=
  .record
    [(.ascii ['h'], .bytes v.block.bytes),
     (.ascii ['n'], .bytes (.ofInt64 v.height))]

def ofBencode (v : Bencode) : Vote where
  block := .ofBytes (v.bytesAt (.ascii ['h']))
  height := v.int64At (.ascii ['n'])

def encode (v : Vote) : Bytes := v.toBencode.render

end Vote

end ChainState
