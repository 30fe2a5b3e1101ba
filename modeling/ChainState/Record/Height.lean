import ChainState.Bencode
import ChainState.Bencode.Printer
import ChainState.Bencode.Reader
import ChainState.Bytes.Fixed

/-!
# The blocks at one height

A height record names the best-chain block of one chain at one height, if
there is one, and the blocks that compete with it.
-/

set_option autoImplicit false

namespace ChainState

structure HeightRecord where
  main : Option Hash
  forks : SortedSet Hash
  deriving DecidableEq

namespace HeightRecord

def empty : HeightRecord := ⟨none, .empty⟩

instance : Inhabited HeightRecord := ⟨empty⟩

def isEmpty (r : HeightRecord) : Bool := r.main.isNone && r.forks.isEmpty

def all (r : HeightRecord) : List Hash := r.main.toList ++ r.forks.elements

/-- Puts a block on the best chain. The block that stood there becomes a
fork. -/
def promote (r : HeightRecord) (hash : Hash) : HeightRecord :=
  let forks :=
    match r.main with
    | some old => if old = hash then r.forks else r.forks.insert old
    | none => r.forks
  ⟨some hash, forks.erase hash⟩

def demote (r : HeightRecord) (hash : Hash) : HeightRecord :=
  if r.main = some hash then ⟨none, r.forks.insert hash⟩ else r

def addFork (r : HeightRecord) (hash : Hash) : HeightRecord :=
  if r.main = some hash then r else ⟨r.main, r.forks.insert hash⟩

def remove (r : HeightRecord) (hash : Hash) : HeightRecord :=
  ⟨if r.main = some hash then none else r.main, r.forks.erase hash⟩

def toBencode (r : HeightRecord) : Bencode :=
  .record
    (r.main.toList.map (fun h => (.ascii ['m'], .bytes h.bytes)) ++
      [(.ascii ['n'], .list (r.forks.elements.map (fun h => .bytes h.bytes)))])

def ofBencode (v : Bencode) : HeightRecord where
  main := (v.bytesAt? (.ascii ['m'])).map .ofBytes
  forks := .ofElements (((v.listAt (.ascii ['n'])).filterMap Bencode.bytes?).map .ofBytes)

def encode (r : HeightRecord) : Bytes := r.toBencode.render

def decode (bytes : Bytes) : Except Bencode.ReadError HeightRecord :=
  (Bencode.decode bytes).map ofBencode

end HeightRecord

end ChainState
