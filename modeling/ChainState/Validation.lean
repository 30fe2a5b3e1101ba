import ChainState.Ledger
import ChainState.Repository.Query

/-!
# Checking blocks

A block is checked against its parent, and against the best-chain state if it
extends the tip, before the repository is changed. Every check names the
first rule that the block breaks.
-/

set_option autoImplicit false

namespace ChainState

variable [Crypto]

inductive ValidationError where
  | repository (cause : RepositoryError)
  | unsupportedVersion (id : Int32)
  | chainMismatch
  | badTransactionSignature
  | badBlockSignature
  | negativeValue
  | selfTransfer
  | emptyChain
  | unknownParent (parent : Hash)
  | notOnTip (parent : Hash)
  | badHeight (got expected : Int64)
  | heightOverflow (parent : Int64)
  | badTimestamp (got parent : Int64)
  | badGenerationSignature
  | badBaseTarget (got expected : UInt64)
  | badCumulativeDifficulty (got expected : UInt64)
  | notEligible
  | notYetEligible (eligible : Int64)
  | badNonce (got expected : Int64)
  | insufficientBalance (balance needed : Int64)
  | postStateMismatch (account : PublicKey)
  | notGenesis
  | badGenesisTransaction
  | negativeGenesisState (account : PublicKey)
  | overflow (cause : Overflow)
  deriving DecidableEq

namespace ValidationError

def expected (what got wanted : String) : String := what ++ " " ++ got ++ ", expected " ++ wanted

def message : ValidationError → String
  | .repository cause => cause.message
  | .unsupportedVersion id => "unsupported version " ++ toString id.toInt
  | .chainMismatch => "chain id does not match"
  | .badTransactionSignature => "transaction signature does not verify"
  | .badBlockSignature => "block signature does not verify"
  | .negativeValue => "amount and fee must be non-negative"
  | .selfTransfer => "sender and receiver are the same account"
  | .emptyChain => "chain has no best tip"
  | .unknownParent parent => "parent block " ++ parent.hex ++ " is unknown"
  | .notOnTip parent => "parent block " ++ parent.hex ++ " is not the best tip"
  | .badHeight got wanted =>
    expected "block height" (toString got.toInt) (toString wanted.toInt)
  | .heightOverflow parent => "parent height " ++ toString parent.toInt ++ " has no successor"
  | .badTimestamp got parent =>
    "timestamp " ++ toString got.toInt ++ " is not after parent timestamp "
      ++ toString parent.toInt
  | .badGenerationSignature => "generation signature does not derive from parent"
  | .badBaseTarget got wanted =>
    expected "base target" (toString got.toNat) (toString wanted.toNat)
  | .badCumulativeDifficulty got wanted =>
    expected "cumulative difficulty" (toString got.toNat) (toString wanted.toNat)
  | .notEligible => "miner is not eligible at this timestamp"
  | .notYetEligible eligible => "miner becomes eligible at " ++ toString eligible.toInt
  | .badNonce got wanted => expected "nonce" (toString got.toInt) (toString wanted.toInt)
  | .insufficientBalance balance needed =>
    "balance " ++ toString balance.toInt ++ " cannot cover " ++ toString needed.toInt
  | .postStateMismatch account =>
    "post-state of " ++ account.hex ++ " does not match its pre-state"
  | .notGenesis => "genesis block must extend the zero hash"
  | .badGenesisTransaction => "genesis transaction must be a note from the miner"
  | .negativeGenesisState account => "genesis post-state of " ++ account.hex ++ " is negative"
  | .overflow cause => cause.message

end ValidationError

abbrev Check (α : Type) := Except ValidationError α

namespace Check

def require (p : Prop) [Decidable p] (e : ValidationError) : Check Unit :=
  if p then .ok () else .error e

def ofQuery {α : Type} (q : Query α) : Check α := q.mapError .repository

def ofChecked {α : Type} (x : Except Overflow α) : Check α := x.mapError .overflow

def ofOption {α : Type} (e : ValidationError) : Option α → Check α
  | some x => .ok x
  | none => .error e

end Check

open Check

/-- Timestamps rise from parent to child. -/
def intervalAfter (parent timestamp : Int64) : Check Int64 :=
  match Checked.sub? timestamp parent with
  | some interval =>
    if 0 < interval then .ok interval else .error (.badTimestamp timestamp parent)
  | none => .error (.badTimestamp timestamp parent)

def childHeight (parent : Block) : Check Int64 :=
  ofOption (.heightOverflow parent.height) (Checked.succ? parent.height)

def validateTransaction (t : Transaction) (chain : Bytes) : Check Unit := do
  require (t.version = .current) (.unsupportedVersion t.version.id)
  require (t.chain = chain) .chainMismatch
  require (t.verifies = true) .badTransactionSignature
  if t.isTransfer then
    require (0 ≤ t.amount ∧ 0 ≤ t.fee) .negativeValue
    require (t.sender ≠ t.receiver) .selfTransfer

def holdingOf (r : Repository) (chain : Bytes) (pk : PublicKey) : Check Holding := do
  let account ← ofQuery (r.account chain pk)
  return ⟨account.balance, account.nonce⟩

def ledgerBefore (r : Repository) (miner : PublicKey) (t : Transaction) : Check Ledger := do
  let minerHolds ← holdingOf r t.chain miner
  let senderHolds ← holdingOf r t.chain t.sender
  let receiverHolds ← holdingOf r t.chain t.receiver
  return fun pk =>
    if pk = miner then minerHolds
    else if pk = t.sender then senderHolds
    else if pk = t.receiver then receiverHolds
    else .zero

/-- What the three accounts hold after `t`, if they held `before`. -/
def statesAfter (before : Ledger) (miner : PublicKey) (t : Transaction) : Check PostStates := do
  if t.isTransfer then
    let held := before t.sender
    require (t.nonce = held.nonce) (.badNonce t.nonce held.nonce)
    let needed ← ofOption .negativeValue (Checked.add? t.amount t.fee)
    require (needed ≤ held.balance) (.insufficientBalance held.balance needed)
    let after ← ofChecked (before.transfer miner t needed)
    return ⟨after miner, after t.sender, after t.receiver⟩
  else return { PostStates.zero with miner := before miner }

/-- What the three accounts hold after `t`, mined by `miner` on the best
chain as it is. -/
def postStates (r : Repository) (miner : PublicKey) (t : Transaction) : Check PostStates := do
  let before ← ledgerBefore r miner t
  statesAfter before miner t

/-- A block at height 0 that opens a chain: a signed note from its miner,
with the consensus fields that every chain starts from. -/
def validateGenesis (b : Block) : Check Unit := do
  require (b.version = .current) (.unsupportedVersion b.version.id)
  require (b.verifies = true) .badBlockSignature
  require (b.isGenesis = true) .notGenesis
  validateTransaction b.transaction b.chain
  require (b.transaction.isTransfer = false ∧ b.transaction.sender = b.miner)
    .badGenesisTransaction
  require (b.height = 0) (.badHeight b.height 0)
  require (b.baseTarget = Consensus.genesisBaseTarget)
    (.badBaseTarget b.baseTarget Consensus.genesisBaseTarget)
  require (b.cumulativeDifficulty = 0) (.badCumulativeDifficulty b.cumulativeDifficulty 0)
  require (b.generationSignature = Consensus.generationSignature .zero b.miner)
    .badGenerationSignature
  require (0 ≤ b.states.miner.balance ∧ 0 ≤ b.states.miner.nonce)
    (.negativeGenesisState b.miner)

/-- The checks that hold wherever the block lies: signatures, the link to the
parent, and the consensus fields that derive from it. Gives the parent. -/
def validateHeader (r : Repository) (b : Block) : Check Block := do
  require (b.version = .current) (.unsupportedVersion b.version.id)
  require (b.verifies = true) .badBlockSignature
  validateTransaction b.transaction b.chain
  let parent ← ofOption (.unknownParent b.parent) (← ofQuery (r.findBlock b.parent))
  require (parent.chain = b.chain) .chainMismatch
  let height ← childHeight parent
  require (b.height = height) (.badHeight b.height height)
  let interval ← intervalAfter parent.timestamp b.timestamp
  require
    (b.generationSignature = Consensus.generationSignature parent.generationSignature b.miner)
    .badGenerationSignature
  let baseTarget := Consensus.nextBaseTarget parent.baseTarget interval
  require (b.baseTarget = baseTarget) (.badBaseTarget b.baseTarget baseTarget)
  let difficulty := Consensus.nextDifficulty parent.cumulativeDifficulty b.baseTarget
  require (b.cumulativeDifficulty = difficulty)
    (.badCumulativeDifficulty b.cumulativeDifficulty difficulty)
  return parent

/-- All checks on a block that extends the best tip. -/
def validateBlock (r : Repository) (b : Block) : Check Unit := do
  let parent ← validateHeader r b
  let parentHash := parent.hash
  require ((← ofQuery (r.tipHash b.chain)) = some parentHash) (.notOnTip parentHash)
  let power ← ofQuery (r.effectivePower b.chain b.miner)
  let interval ← intervalAfter parent.timestamp b.timestamp
  let eligible ← ofChecked
    (Consensus.eligible (Consensus.hit b.generationSignature) parent.baseTarget power interval)
  require (eligible = true) .notEligible
  let states ← postStates r b.miner b.transaction
  require (b.states.miner = states.miner) (.postStateMismatch b.miner)
  if b.transaction.isTransfer then
    require (b.states.sender = states.sender) (.postStateMismatch b.transaction.sender)
    require (b.states.receiver = states.receiver) (.postStateMismatch b.transaction.receiver)

end ChainState
