import ChainState.Bencode
import ChainState.Bencode.Printer
import ChainState.Bencode.Reader
import ChainState.Bytes.Fixed

/-!
# Where an account is found

A span names the latest and the oldest block on the best chain that name an
account.
-/

set_option autoImplicit false

namespace ChainState

structure Span where
  latest : Hash
  oldest : Hash
  deriving DecidableEq

namespace Span

def empty : Span := ⟨.zero, .zero⟩

instance : Inhabited Span := ⟨empty⟩

def toBencode (s : Span) : Bencode :=
  .record
    [(.ascii ['l'], .bytes s.latest.bytes),
     (.ascii ['o'], .bytes s.oldest.bytes)]

def ofBencode (v : Bencode) : Span where
  latest := .ofBytes (v.bytesAt (.ascii ['l']))
  oldest := .ofBytes (v.bytesAt (.ascii ['o']))

def encode (s : Span) : Bytes := s.toBencode.render

def decode (bytes : Bytes) : Except Bencode.ReadError Span :=
  (Bencode.decode bytes).map ofBencode

end Span

end ChainState
