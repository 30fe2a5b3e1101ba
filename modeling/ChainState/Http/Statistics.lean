import ChainState.Http.Response
import ChainState.Repository.Query

/-!
# Statistics of a chain

The pace of a chain is the mean of its last intervals, the seconds between
one block and the next.
-/

set_option autoImplicit false

namespace ChainState.Http

variable [Crypto]

def statsWindow : Nat := 10

structure Snapshot where
  tip : Block
  tail : Option Block
  peers : Nat
  /-- The best chain's last blocks, in order. -/
  recent : List Block

def snapshot (r : Repository) (chain : Bytes) : Query (Option Snapshot) := do
  let tip ← r.tip chain
  let tail ← r.tail chain
  let peers := (r.peers chain).known.elements.length
  match tip with
  | none => return none
  | some tip =>
    let start := max (Checked.clampedSub tip.height (Int64.ofNat statsWindow)) 0
    let recent ← r.range chain start (statsWindow + 1)
    return some { tip, tail, peers, recent }

/-- The seconds between each two neighbouring blocks, and never less than
none. -/
def intervals (blocks : List Block) : List Int64 :=
  List.zipWith (fun a b => max (Checked.clampedSub b.timestamp a.timestamp) 0)
    blocks (blocks.drop 1)

def total (numbers : List Int64) : Except Overflow Int64 := numbers.foldlM Checked.add 0

def average? (numbers : List Int64) : Except Overflow (Option Float) := do
  if numbers.isEmpty then return none
  else return some ((← total numbers).toFloat / Float.ofNat numbers.length)

def statsResponse (chain : Bytes) (s : Snapshot) : Except Overflow Response := do
  let recent := intervals s.recent
  let average ← average? recent
  return .ok
    [("chain_id", hexText chain),
     ("tip_block_number", .number s.tip.height),
     ("tail_block_number", .number ((s.tail.map (·.height)).getD 0)),
     ("cumulative_difficulty", .word s.tip.cumulativeDifficulty),
     ("base_target", .word s.tip.baseTarget),
     ("target_block_time_secs", .int Consensus.blockTime),
     ("last_interval_secs", .ofOption .number recent.getLast?),
     ("avg_interval_secs", .ofOption .float average),
     ("peers", .int s.peers)]

end ChainState.Http
