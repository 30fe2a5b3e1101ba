import ChainState.Validation

/-!
# Building blocks

A miner seals blocks on one chain with the key pair of a seed.
-/

set_option autoImplicit false

namespace ChainState

structure Miner where
  chain : Bytes
  seed : Seed

namespace Miner

variable [Crypto]

open Check

def key (m : Miner) : PublicKey := Crypto.publicKey m.seed

def note (m : Miner) (timestamp : Int64) (payload : Bytes) : Transaction :=
  (Transaction.note m.chain timestamp m.key payload).sign m.seed

def genesis (m : Miner) (timestamp balance : Int64) : Block :=
  let key := m.key
  Block.sign
    { version := .current
      chain := m.chain
      timestamp
      height := 0
      parent := .zero
      baseTarget := Consensus.genesisBaseTarget
      cumulativeDifficulty := 0
      generationSignature := Consensus.generationSignature .zero key
      transaction := m.note timestamp (Bytes.ofString "genesis")
      miner := key
      states := { PostStates.zero with miner := ⟨balance, 0⟩ }
      signature := .zero }
    m.seed

/-- The earliest timestamp at which the miner may extend `parent`. -/
def eligibleFrom (m : Miner) (r : Repository) (parent : Block) : Check Int64 := do
  let key := m.key
  let power ← ofQuery (r.effectivePower m.chain key)
  let hit := Consensus.hit (Consensus.generationSignature parent.generationSignature key)
  let wait := Consensus.waitingTime hit parent.baseTarget power
  ofOption (.badTimestamp Int64.maxValue parent.timestamp)
    (Checked.add? parent.timestamp wait)

/-- A block that holds `t`, on the best tip, sealed at the given time. -/
def buildAt (m : Miner) (r : Repository) (t : Transaction) (timestamp : Int64) :
    Check Block := do
  let parent ← ofOption .emptyChain (← ofQuery (r.tip m.chain))
  validateTransaction t m.chain
  let interval ← intervalAfter parent.timestamp timestamp
  let key := m.key
  let generationSignature := Consensus.generationSignature parent.generationSignature key
  let power ← ofQuery (r.effectivePower m.chain key)
  let eligible ← ofChecked
    (Consensus.eligible (Consensus.hit generationSignature) parent.baseTarget power interval)
  require (eligible = true) .notEligible
  let baseTarget := Consensus.nextBaseTarget parent.baseTarget interval
  let states ← postStates r key t
  let height ← childHeight parent
  return Block.sign
    { version := .current
      chain := m.chain
      timestamp
      height
      parent := parent.hash
      baseTarget
      cumulativeDifficulty := Consensus.nextDifficulty parent.cumulativeDifficulty baseTarget
      generationSignature
      transaction := t
      miner := key
      states
      signature := .zero }
    m.seed

/-- A block sealed now, if the miner may extend the best tip by now. -/
def build (m : Miner) (r : Repository) (t : Transaction) (now : Int64) : Check Block := do
  let parent ← ofOption .emptyChain (← ofQuery (r.tip m.chain))
  let earliest ← m.eligibleFrom r parent
  require (earliest ≤ now) (.notYetEligible earliest)
  m.buildAt r t now

end Miner

end ChainState
