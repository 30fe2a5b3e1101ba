import ChainState.Block
import ChainState.Record.Key
import Std.Data.HashMap

/-!
# Repositories

A repository keeps records under keys. Writes are staged above the durable
store and reach it together. Overlays may lie above these, each holding the
writes made since it was opened; a read takes the topmost layer that mentions
its key. Beside the writes, every layer notes the blocks that entered or left
the best chain, in order.

Peer sets are kept per chain. They are not staged: only an overlay holds
changes of them back.
-/

set_option autoImplicit false

namespace ChainState

/-- Records written (`some`) or deleted (`none`), by key. -/
abbrev Layer := Std.HashMap Key (Option Bytes)

variable [Crypto]

structure Batch where
  writes : Layer
  noted : List Block

def Batch.empty : Batch := ⟨∅, []⟩

def Batch.isEmpty (b : Batch) : Bool := b.writes.isEmpty && b.noted.isEmpty

def Batch.append (lower upper : Batch) : Batch :=
  ⟨lower.writes ∪ upper.writes, lower.noted ++ upper.noted⟩

structure PeerSets where
  known : SortedSet PublicKey
  gossip : SortedSet PublicKey

def PeerSets.empty : PeerSets := ⟨.empty, .empty⟩

abbrev PeerBook := Std.HashMap Bytes PeerSets

inductive PeerChange where
  | create (chain : Bytes)
  | drop (chain : Bytes)
  | add (chain : Bytes) (peer : PublicKey)
  | remove (chain : Bytes) (peer : PublicKey)
  | addGossip (chain : Bytes) (peer : PublicKey)
  | removeGossip (chain : Bytes) (peer : PublicKey)
  deriving DecidableEq

namespace PeerBook

def ofChain (book : PeerBook) (chain : Bytes) : PeerSets := (book[chain]?).getD .empty

def apply (book : PeerBook) : PeerChange → PeerBook
  | .create _ => book
  | .drop chain => book.erase chain
  | .add chain peer =>
    let sets := ofChain book chain
    book.insert chain { sets with known := sets.known.insert peer }
  | .remove chain peer =>
    let sets := ofChain book chain
    book.insert chain { sets with known := sets.known.erase peer }
  | .addGossip chain peer =>
    let sets := ofChain book chain
    book.insert chain { sets with gossip := sets.gossip.insert peer }
  | .removeGossip chain peer =>
    let sets := ofChain book chain
    book.insert chain { sets with gossip := sets.gossip.erase peer }

end PeerBook

/-- What lies on disk: the records, the best-chain blocks of every chain by
height, and the peers. -/
structure Store where
  records : Layer
  heights : Std.HashMap Bytes (SortedMap Int64 Hash)
  peers : PeerBook

def Store.empty : Store := ⟨∅, ∅, ∅⟩

structure Overlay where
  batch : Batch
  peerChanges : List PeerChange

def Overlay.empty : Overlay := ⟨.empty, []⟩

structure Repository where
  store : Store
  staged : Batch
  /-- The innermost overlay comes first. -/
  overlays : List Overlay

/-- The value of a key in a stack of layers, the topmost first. -/
def lookup (k : Key) : List Layer → Option Bytes
  | [] => none
  | layer::below =>
    match layer[k]? with
    | some value => value
    | none => lookup k below

namespace Repository

def empty : Repository := ⟨.empty, .empty, []⟩

instance : Inhabited Repository := ⟨empty⟩

def layers (r : Repository) : List Layer :=
  r.overlays.map (·.batch.writes) ++ [r.staged.writes, r.store.records]

def value (r : Repository) (k : Key) : Option Bytes := lookup k r.layers

def recordCount (r : Repository) : Nat := r.layers.foldr (fun layer n => layer.size + n) 0

def amend (r : Repository) (f : Batch → Batch) : Repository :=
  match r.overlays with
  | [] => { r with staged := f r.staged }
  | top::below => { r with overlays := { top with batch := f top.batch }::below }

def put (r : Repository) (k : Key) (value : Bytes) : Repository :=
  r.amend fun b => { b with writes := b.writes.insert k (some value) }

def delete (r : Repository) (k : Key) : Repository :=
  r.amend fun b => { b with writes := b.writes.insert k none }

/-- Notes that a block entered or left the best chain. -/
def note (r : Repository) (block : Block) : Repository :=
  r.amend fun b => { b with noted := b.noted ++ [block] }

def peers (r : Repository) (chain : Bytes) : PeerSets :=
  ((r.overlays.reverse.flatMap (·.peerChanges)).foldl PeerBook.apply r.store.peers).ofChain chain

def changePeers (r : Repository) (change : PeerChange) : Repository :=
  match r.overlays with
  | [] => { r with store := { r.store with peers := PeerBook.apply r.store.peers change } }
  | top::below =>
    { r with overlays := { top with peerChanges := top.peerChanges ++ [change] }::below }

theorem value_amend_insert (r : Repository) (k k' : Key) (v : Option Bytes) :
    (r.amend fun b => { b with writes := b.writes.insert k v }).value k' =
      if k = k' then v else r.value k' := by
  obtain ⟨store, staged, overlays⟩ := r
  cases overlays with
  | nil =>
    by_cases h : k = k' <;>
      simp [amend, value, layers, lookup, Std.HashMap.getElem?_insert, h]
  | cons top below =>
    by_cases h : k = k' <;>
      simp [amend, value, layers, lookup, Std.HashMap.getElem?_insert, h]

@[simp] theorem value_put (r : Repository) (k k' : Key) (v : Bytes) :
    (r.put k v).value k' = if k = k' then some v else r.value k' :=
  r.value_amend_insert k k' (some v)

@[simp] theorem value_delete (r : Repository) (k k' : Key) :
    (r.delete k).value k' = if k = k' then none else r.value k' :=
  r.value_amend_insert k k' none

@[simp] theorem value_note (r : Repository) (block : Block) (k : Key) :
    (r.note block).value k = r.value k := by
  obtain ⟨store, staged, overlays⟩ := r
  cases overlays <;> rfl

end Repository

end ChainState
