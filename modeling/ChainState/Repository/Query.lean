import ChainState.Checked
import ChainState.Consensus
import ChainState.Record.Height
import ChainState.Record.Links
import ChainState.Record.Span
import ChainState.Repository
import ChainState.Repository.Error
import ChainState.StateArray

/-!
# Reading a repository

Records are decoded where they are read, and a record that does not decode is
an error of the read. The state of an account is found through its span: the
latest block that names it carries the state.
-/

set_option autoImplicit false

namespace ChainState

variable [Crypto]

abbrev Query (α : Type) := Except RepositoryError α

def hashOfRecord (bytes : Bytes) : Except Bencode.ReadError Hash :=
  if bytes.length = 32 then .ok (.ofBytes bytes) else .error (.invalidLength bytes.length)

def chainsOfRecord (bytes : Bytes) : Except Bencode.ReadError (SortedSet Bytes) := do
  let v ← Bencode.decode bytes
  return .ofElements ((v.list?.getD []).filterMap Bencode.bytes?)

def recordOfChains (chains : SortedSet Bytes) : Bytes :=
  (Bencode.list (chains.elements.map .bytes)).render

/-- Where a block fits, relative to the best chain. -/
inductive Placement where
  | extendsTip
  | extendsTail
  | fork
  | stale
  deriving DecidableEq, Repr

namespace Repository

def load {α : Type} (r : Repository) (k : Key) (decode : Bytes → Except Bencode.ReadError α) :
    Query (Option α) :=
  match r.value k with
  | none => .ok none
  | some bytes =>
    match decode bytes with
    | .ok x => .ok (some x)
    | .error e => .error (.corrupt e)

def chains (r : Repository) : Query (SortedSet Bytes) :=
  (r.load .chains chainsOfRecord).map (·.getD .empty)

def hasBlock (r : Repository) (hash : Hash) : Bool := (r.value (.block hash)).isSome

def findSpan (r : Repository) (chain : Bytes) (pk : PublicKey) : Query (Option Span) :=
  r.load (.span chain pk) Span.decode

def hasAccount (r : Repository) (chain : Bytes) (pk : PublicKey) : Query Bool :=
  (r.findSpan chain pk).map (·.isSome)

def findLinks (r : Repository) (hash : Hash) : Query (Option Links) :=
  r.load (.links hash) Links.decode

def findHeight (r : Repository) (chain : Bytes) (height : Int64) :
    Query (Option HeightRecord) :=
  r.load (.height chain height) HeightRecord.decode

def tipHash (r : Repository) (chain : Bytes) : Query (Option Hash) :=
  r.load (.tip chain) hashOfRecord

def tailHash (r : Repository) (chain : Bytes) : Query (Option Hash) :=
  r.load (.tail chain) hashOfRecord

def mainHashAt (r : Repository) (chain : Bytes) (height : Int64) : Query (Option Hash) := do
  let record ← r.findHeight chain height
  return record.bind (·.main)

def findBlock (r : Repository) (hash : Hash) : Query (Option Block) :=
  r.load (.block hash) Block.decode

def namedBlock (r : Repository) (hash : Hash) : Query Block := do
  match ← r.findBlock hash with
  | some block => return block
  | none => throw (.blockNotFound hash)

def tip (r : Repository) (chain : Bytes) : Query (Option Block) := do
  match ← r.tipHash chain with
  | some hash => return some (← r.namedBlock hash)
  | none => return none

def tail (r : Repository) (chain : Bytes) : Query (Option Block) := do
  match ← r.tailHash chain with
  | some hash => return some (← r.namedBlock hash)
  | none => return none

def mainBlockAt (r : Repository) (chain : Bytes) (height : Int64) : Query (Option Block) := do
  match ← r.mainHashAt chain height with
  | some hash => r.findBlock hash
  | none => return none

/-- What `pk` holds on the chain. The block that carries the state has to be
the best-chain block at its height. -/
def account (r : Repository) (chain : Bytes) (pk : PublicKey) : Query Account := do
  match ← r.findSpan chain pk with
  | none => return .absent
  | some span =>
    let block ← r.namedBlock span.latest
    let main ← r.mainHashAt chain block.height
    if main ≠ some span.latest then throw (.inconsistent (.offBestChain pk span.latest))
    match block.account? pk with
    | some account => return account
    | none => throw (.inconsistent (.notNamed span.latest pk))

/-- What `pk` holds on the chain, if its span can be trusted. -/
def accountUnverified (r : Repository) (chain : Bytes) (pk : PublicKey) : Query Account := do
  match ← r.findSpan chain pk with
  | none => return .absent
  | some span =>
    let block ← r.namedBlock span.latest
    return (block.account? pk).getD .absent

def stateArray (r : Repository) (chain : Bytes) (pks : List PublicKey) : Query StateArray := do
  return { accounts := ← pks.mapM (r.account chain) }

def countHistory (r : Repository) (pk : PublicKey) (floor : Int64) : Nat → Hash → Query Nat
  | 0, _ => return 0
  | steps+1, cursor => do
    if cursor.isZero then return 0
    match ← r.findBlock cursor with
    | none => return 0
    | some block =>
      if block.height ≤ floor then return 0
      match ← r.findLinks cursor with
      | none => return 1
      | some links => return (← countHistory r pk floor steps (links.previousOf pk)) + 1

/-- A history whose heights fall has no more blocks above the floor than the
window is wide, and one that ends at all passes no record twice. -/
def historyBound (r : Repository) : Nat := Consensus.powerWindow.toInt.toNat + r.recordCount

def effectivePower (r : Repository) (chain : Bytes) (pk : PublicKey) : Query Int64 := do
  match ← r.findSpan chain pk with
  | none => return 0
  | some span =>
    match ← r.tip chain with
    | none => return 0
    | some tip =>
      let floor := Checked.clampedSub tip.height Consensus.powerWindow
      return Int64.ofNat (← r.countHistory pk floor r.historyBound span.latest)

def accountWithPower (r : Repository) (chain : Bytes) (pk : PublicKey) : Query Account := do
  let account ← r.account chain pk
  let effectivePower ← r.effectivePower chain pk
  return { account with effectivePower }

def placement (r : Repository) (block : Block) : Query Placement := do
  let hash := block.hash
  if (← r.mainHashAt block.chain block.height) = some hash then return .stale
  match ← r.tip block.chain with
  | none => return .extendsTip
  | some tip =>
    if block.parent = tip.hash then return .extendsTip
    match ← r.tail block.chain with
    | none => return .fork
    | some tail =>
      if tail.parent = hash then return .extendsTail
      if block.height < tail.height then return .stale
      return .fork

/-- Best-chain blocks as of the last flush, from a height upwards. -/
def range (r : Repository) (chain : Bytes) (start : Int64) (limit : Nat) :
    Query (List Block) := do
  let index := (r.store.heights[chain]?).getD .empty
  let rows := (index.entries.filter (fun e => start ≤ e.1)).take limit
  let blocks ← rows.mapM (fun e => r.findBlock e.2)
  return blocks.filterMap id

end Repository

end ChainState
