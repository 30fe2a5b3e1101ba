import ChainState.Branch
import ChainState.Miner

/-!
# What a node does with its repository

A node opens chains, mines on them, and takes in blocks from elsewhere. Each
of these changes the durable store or discards what it had staged.
-/

set_option autoImplicit false

namespace ChainState.Node

variable [Crypto]

/-- Makes a transition durable. If either fails, all staged changes are
discarded. -/
def settle {α : Type} (t : Transition α) : Transition α := do
  try
    let x ← t
    Transition.flush
    return x
  catch e =>
    modify Repository.discardChanges
    throw e

inductive OpenError where
  | exists
  | repository (cause : RepositoryError)
  deriving DecidableEq

/-- A change of the repository that may fail with an error of type `ε`. -/
abbrev Action (ε α : Type) := ExceptT ε (StateM Repository) α

def ofTransition {ε α : Type} (error : RepositoryError → ε) (t : Transition α) : Action ε α :=
  ExceptT.mk do
    match ← t.run with
    | .ok x => return .ok x
    | .error e => return .error (error e)

def ofCheck {α : Type} (check : Repository → Check α) : Action ValidationError α := do
  match check (← get) with
  | .ok x => return x
  | .error e => throw e

def openChain (miner : Miner) (timestamp balance : Int64) : Action OpenError Block := do
  if (← ofTransition .repository (Transition.query (·.tipHash miner.chain))).isSome then
    throw .exists
  let genesis := miner.genesis timestamp balance
  ofTransition .repository (settle (Transition.connectTip genesis))
  return genesis

def mine (miner : Miner) (t : Transaction) (now : Int64) : Action ValidationError Block := do
  let block ← ofCheck fun r => miner.build r t now
  ofTransition .repository (settle (Transition.connectTip block))
  return block

/-- A block above the tip is validated against it. The first block of a chain
is its genesis, unless it names a parent. -/
def checkAtTip (r : Repository) (block : Block) : Check Unit := do
  let tip ← Check.ofQuery (r.tipHash block.chain)
  if tip.isSome ∨ block.isGenesis = false then validateBlock r block
  else validateGenesis block

def accept (block : Block) : Action ValidationError Placement := do
  let placement ← ofCheck fun r => Check.ofQuery (r.placement block)
  match placement with
  | .extendsTip =>
    ofCheck fun r => checkAtTip r block
    ofTransition .repository (Transition.connectTip block)
  | .extendsTail =>
    ofCheck fun _ => Check.require (block.verifies = true) .badBlockSignature
    ofTransition .repository (Transition.connectTail block)
  | .fork =>
    discard (ofCheck fun r => validateHeader r block)
    ofTransition .repository (Transition.saveFork block)
  | .stale => return placement
  return placement

/-- Accepts a block and makes the change durable, or discards it. -/
def submit (block : Block) : Action ValidationError Placement := do
  try
    let placement ← accept block
    ofTransition .repository Transition.flush
    return placement
  catch e =>
    modify Repository.discardChanges
    throw e

end ChainState.Node
