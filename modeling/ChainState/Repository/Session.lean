import ChainState.Repository.Transition

/-!
# Overlays and the durable store

An overlay holds changes back until it is committed, which hands them to what
lies below it. A flush hands everything down and makes the staged writes
durable, together with the index of best-chain blocks by height: every noted
block is entered there if it is on the best chain now, and taken out if not.
-/

set_option autoImplicit false

namespace ChainState

variable [Crypto]

abbrev HeightIndex := Std.HashMap Bytes (SortedMap Int64 Hash)

namespace HeightIndex

def ofChain (index : HeightIndex) (chain : Bytes) : SortedMap Int64 Hash :=
  (index[chain]?).getD .empty

/-- The block takes the place of any other at its height. -/
def enter (index : HeightIndex) (chain : Bytes) (height : Int64) (hash : Hash) : HeightIndex :=
  index.insert chain ((ofChain index chain).insert height hash)

/-- Another block at the same height stays. -/
def leave (index : HeightIndex) (chain : Bytes) (height : Int64) (hash : Hash) : HeightIndex :=
  let rows := ofChain index chain
  if rows.find? height = some hash then index.insert chain (rows.erase height) else index

end HeightIndex

namespace Repository

def track (r : Repository) : Repository := { r with overlays := .empty::r.overlays }

def untrack (r : Repository) : Repository := { r with overlays := r.overlays.tail }

/-- Hands the changes of the innermost overlay to what lies below it. The
overlay stays open, and empty. -/
def handDown (r : Repository) : Repository :=
  match r.overlays with
  | [] => r
  | top::below =>
    let lower := ({ r with overlays := below } : Repository).amend (·.append top.batch)
    (top.peerChanges.foldl changePeers lower).track

def handDownAll (r : Repository) : Repository where
  store :=
    { r.store with
      peers := (r.overlays.reverse.flatMap (·.peerChanges)).foldl PeerBook.apply r.store.peers }
  staged := r.overlays.reverse.foldl (fun lower o => lower.append o.batch) r.staged
  overlays := r.overlays.map (fun _ => .empty)

/-- Discards what the topmost layer holds. Below all overlays, peer sets are
not among it. -/
def discardChanges (r : Repository) : Repository :=
  match r.overlays with
  | [] => { r with staged := .empty }
  | _::below => { r with overlays := .empty::below }

def reopen (r : Repository) : Repository := ⟨r.store, .empty, []⟩

def pendingWrites? (r : Repository) : Option Nat :=
  r.overlays.head?.map (·.batch.writes.size)

def isMain (r : Repository) (block : Block) : Query Bool := do
  return (← r.mainHashAt block.chain block.height) = some block.hash

def indexBlock (index : HeightIndex) (entry : Block × Bool) : HeightIndex :=
  let (block, main) := entry
  if main then index.enter block.chain block.height block.hash
  else index.leave block.chain block.height block.hash

def flushStaged (r : Repository) : Query Repository := do
  if r.staged.isEmpty then return r
  let statuses ← r.staged.noted.mapM fun block => return (block, ← r.isMain block)
  return { r with
    store := { r.store with
      records := r.store.records ∪ r.staged.writes
      heights := statuses.foldl indexBlock r.store.heights }
    staged := .empty }

end Repository

namespace Transition

def flush : Transition Unit := do
  modify Repository.handDownAll
  set (← query Repository.flushStaged)

/-- Commits the innermost overlay, or flushes where there is none. -/
def commit : Transition Unit := do
  if (← get).overlays.isEmpty then flush else modify Repository.handDown

end Transition

end ChainState
