import ChainState.Checked
import ChainState.Crypto

/-!
# Proof of stake

Every block draws a hit from its generation signature, and its miner may seal
it once the hit lies below base target times power times seconds waited. The
base target follows the pace of the blocks; chains are compared by their
cumulative difficulty. All arithmetic is on whole numbers, so that all nodes
agree.
-/

set_option autoImplicit false

namespace ChainState.Consensus

def blockTime : Nat := 300

def minBlockTime : Nat := 60

def maxBlockTime : Nat := 540

def lowestBaseTarget : Nat := 0x100000000

def genesisBaseTarget : UInt64 := 0x21D0369D036978

/-- How many heights below the tip count towards an account's power. -/
def powerWindow : Int64 := 288

def maxReorgDepth : Int64 := 288

def highestWord : Nat := UInt64.size - 1

def clampSeconds (interval : Int) : Nat :=
  (max (minBlockTime : Int) (min interval maxBlockTime)).toNat

/-- A thirty-second part of the base target, per block time by which the
interval was off. -/
def adjustment (previous seconds : Nat) : Nat :=
  previous * (UInt64.size / 32) / UInt64.size * seconds / blockTime

/-- The base target of a block, from that of its parent and the seconds
between the two. Quick blocks lower it, slow ones raise it. -/
def nextBaseTarget (previous : UInt64) (interval : Int64) : UInt64 :=
  let seconds := clampSeconds interval.toInt
  let prev := previous.toNat
  let next :=
    if seconds < blockTime then prev - adjustment prev (blockTime - seconds)
    else prev + adjustment prev (seconds - blockTime)
  UInt64.ofNat (max lowestBaseTarget (min next highestWord))

/-- The difficulty of a chain grows by `2^64 / baseTarget` with each block,
up to the highest word. -/
def nextDifficulty (previous baseTarget : UInt64) : UInt64 :=
  let step := UInt64.size / max baseTarget.toNat 1
  UInt64.ofNat (min (previous.toNat + step) highestWord)

def generationSignature [Crypto] (previous : Hash) (miner : PublicKey) : Hash :=
  Crypto.digest (previous.bytes ++ miner.bytes)

def hit (generationSignature : Hash) : UInt64 :=
  UInt64.ofNat (Bytes.ofBigEndian (generationSignature.bytes.take 8))

/-- The seconds after which a miner may seal a block on its parent. -/
def waitingTime (hit baseTarget : UInt64) (power : Int64) : Int64 :=
  if power.toInt ≤ 0 then Int64.ofNat maxBlockTime
  else
    let weight := max baseTarget.toNat 1 * power.toInt.toNat
    Int64.ofNat (clampSeconds (min ((hit.toNat / weight + 1 : Nat) : Int) Int64.maxValue.toInt))

def product (a b : Nat) : Except Overflow Nat :=
  if a * b < UInt64.size * UInt64.size then .ok (a * b) else .error .multiplication

def eligible (hit baseTarget : UInt64) (power interval : Int64) : Except Overflow Bool := do
  if interval.toInt < minBlockTime then return false
  else if maxBlockTime ≤ interval.toInt then return true
  else if power.toInt ≤ 0 then return false
  else
    let weight ← product baseTarget.toNat power.toInt.toNat
    let bound ← product weight interval.toInt.toNat
    return hit.toNat < bound

end ChainState.Consensus
