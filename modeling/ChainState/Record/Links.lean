import ChainState.Bencode
import ChainState.Bencode.Printer
import ChainState.Bencode.Reader
import ChainState.Bytes.Fixed

/-!
# The history of accounts

A links record belongs to one best-chain block and threads a list through the
chain for every account the block names: `previous` gives the nearest block
below that names the account, or the zero hash, and `next` the nearest block
above, once there is one.
-/

set_option autoImplicit false

namespace ChainState

structure Links where
  block : Hash
  previous : SortedMap PublicKey Hash
  next : SortedMap PublicKey Hash
  deriving DecidableEq

namespace Links

def ofBlock (block : Hash) : Links := ⟨block, .empty, .empty⟩

def setPrevious (l : Links) (pk : PublicKey) (hash : Hash) : Links :=
  { l with previous := l.previous.insert pk hash }

def setNext (l : Links) (pk : PublicKey) (hash : Hash) : Links :=
  { l with next := l.next.insert pk hash }

def clearPrevious (l : Links) (pk : PublicKey) : Links :=
  { l with previous := l.previous.erase pk }

def clearNext (l : Links) (pk : PublicKey) : Links := { l with next := l.next.erase pk }

/-- The nearest block below that names the account, or the zero hash. -/
def previousOf (l : Links) (pk : PublicKey) : Hash := (l.previous.find? pk).getD .zero

def pairs (m : SortedMap PublicKey Hash) : Bencode :=
  .list (m.entries.map (fun e => .list [.bytes e.1.bytes, .bytes e.2.bytes]))

def pair? : Bencode → Option (PublicKey × Hash)
  | .list [.bytes pk, .bytes hash] => some (.ofBytes pk, .ofBytes hash)
  | _ => none

def toBencode (l : Links) : Bencode :=
  .record
    [(.ascii ['h'], .bytes l.block.bytes),
     (.ascii ['p'], pairs l.previous),
     (.ascii ['n'], pairs l.next)]

/-- What is no pair of byte strings is passed over. -/
def ofBencode (v : Bencode) : Links where
  block := .ofBytes (v.bytesAt (.ascii ['h']))
  previous := .ofList ((v.listAt (.ascii ['p'])).filterMap pair?)
  next := .ofList ((v.listAt (.ascii ['n'])).filterMap pair?)

def encode (l : Links) : Bytes := l.toBencode.render

def decode (bytes : Bytes) : Except Bencode.ReadError Links :=
  (Bencode.decode bytes).map ofBencode

end Links

end ChainState
