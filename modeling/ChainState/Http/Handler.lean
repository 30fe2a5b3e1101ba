import ChainState.Http.Parameter
import ChainState.Http.Statistics
import ChainState.Node

/-!
# Requests in progress

A handler answers from the repository and may change it. Errors of the
repository have status 500, what does not pass validation has status 400.
-/

set_option autoImplicit false

namespace ChainState.Http

variable [Crypto]

/-- What stops a request before it is done. -/
inductive Stop where
  | response (response : Response)
  | overflow (cause : Overflow)

abbrev Handler (α : Type) := ExceptT Stop (StateM Repository) α

namespace Handler

def refuse {α : Type} (status : Nat) (text : String) : Handler α :=
  throw (.response (.plain status text))

def failure {α : Type} (e : RepositoryError) : Handler α := refuse 500 e.message

def query {α : Type} (q : Repository → Query α) : Handler α := do
  match q (← get) with
  | .ok x => return x
  | .error e => failure e

def action {ε α : Type} (a : Node.Action ε α) (answer : ε → Handler α) : Handler α := do
  let (result, r) := a.run.run (← get)
  set r
  match result with
  | .ok x => return x
  | .error e => answer e

def invalid {α : Type} : ValidationError → Handler α
  | .repository e => failure e
  | .overflow cause => throw (.overflow cause)
  | e => refuse 400 e.message

end Handler

def blockOrNotFound : Option Block → Handler Response
  | some block => return .ok (blockFields block)
  | none => Handler.refuse 404 "no such block"

def defaultRangeLimit : Nat := 20

def maxRangeLimit : Nat := 100

/-- Without a start, a range begins at the tail. -/
def rangeStart (chain : Bytes) : Option Int64 → Handler Int64
  | some start => return start
  | none => do
    let tail ← Handler.query (·.tail chain)
    return (tail.map (·.height)).getD 0

def range (chain : Bytes) (q : RangeQuery) : Handler Response := do
  let limit := min (q.limit.getD defaultRangeLimit) maxRangeLimit
  let start ← rangeStart chain q.start
  let blocks ← Handler.query (·.range chain start limit)
  return .ok
    [("from", .number start), ("blocks", .array (blocks.map (fun b => .object (blockFields b))))]

def createChain (now : Int64) (miner : Miner) (q : OpenRequest) : Handler Response := do
  let timestamp := q.timestamp.getD now
  let genesis ← Handler.action (Node.openChain miner timestamp q.balance) fun
    | .exists => Handler.refuse 409 "chain already exists"
    | .repository e => Handler.failure e
  return .ok (blockFields genesis)

def mine (now : Int64) (miner : Miner) (t : Transaction) : Handler Response := do
  let block ← Handler.action (Node.mine miner t now) fun
    | .notYetEligible eligible =>
      throw (.response ⟨429, .json (.object [("eligible_at", .number eligible)])⟩)
    | e => Handler.invalid e
  return .ok (blockFields block)

def placementName : Placement → String
  | .extendsTip => "tip"
  | .extendsTail => "tail"
  | .fork => "fork"
  | .stale => "stale"

def submit (block : Block) : Handler Response := do
  let placement ← Handler.action (Node.submit block) Handler.invalid
  let accepted := placement != .stale
  return ⟨if accepted then 200 else 409, .json (.object
    [("accepted", .bool accepted),
     ("placement", .string (placementName placement)),
     ("hash", fixedText block.hash),
     ("block_number", .number block.height)])⟩

def statistics (chain : Bytes) : Handler Response := do
  match ← Handler.query (snapshot · chain) with
  | none => Handler.refuse 404 "unknown chain"
  | some s =>
    match statsResponse chain s with
    | .ok response => return response
    | .error cause => throw (.overflow cause)

end ChainState.Http
