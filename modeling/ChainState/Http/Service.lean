import ChainState.Http.Handler

/-!
# The HTTP interface of a node

A request is routed, its parameters are read, and a handler answers from the
node's repository.

A check whose arithmetic overflows aborts the request. If it held the
repository at the time, no later request is given it.
-/

set_option autoImplicit false

namespace ChainState.Http

variable [Crypto]

/-- A request is answered, unless it is aborted. -/
inductive Reply where
  | response (response : Response)
  | aborted (cause : Overflow)

structure Service where
  reading : Reading
  repository : Repository
  available : Bool

def Service.ofRepository (reading : Reading) (repository : Repository) : Service :=
  ⟨reading, repository, true⟩

/-- How a request is answered, once it has been read. A wallet is made from
the seed `fresh`. -/
def handler (reading : Reading) (now : Int64) (fresh : Seed) (request : Request) :
    Route → Parsed (Handler Response)
  | .health => .ok (return .plain 200 "chain-state API is up")
  | .newWallet =>
    .ok do
      return .ok
        [("secret_key", fixedText fresh), ("public_key", fixedText (Crypto.publicKey fresh))]
  | .listChains =>
    .ok do
      let chains ← Handler.query (·.chains)
      return .ok [("chains", .array (chains.elements.map hexText))]
  | .createChain => do
    let q ← Parsed.readable (reading.opening? request)
    let chain ← Parsed.chain (Bytes.ofString q.chain)
    let seed ← Parsed.seed q.secret
    if q.balance < 0 then throw (.plain 400 "initial_balance must be >= 0")
    return createChain now ⟨chain, seed⟩ q
  | .tip chain => do
    let chain ← Parsed.chain chain
    return do blockOrNotFound (← Handler.query (·.tip chain))
  | .tail chain => do
    let chain ← Parsed.chain chain
    return do blockOrNotFound (← Handler.query (·.tail chain))
  | .range chain query => do
    let q ← Parsed.readable (reading.range? query)
    let chain ← Parsed.chain chain
    return range chain q
  | .account chain publicKey => do
    let chain ← Parsed.chain chain
    let pk ← Parsed.fixed publicKey
    return do
      let account ← Handler.query (·.accountWithPower chain pk)
      return .ok (accountFields chain pk account)
  | .stats chain => do
    let chain ← Parsed.chain chain
    return statistics chain
  | .mine chain => do
    let q ← Parsed.readable (reading.mining? request)
    let chain ← Parsed.chain chain
    let seed ← Parsed.seed q.secret
    let miner : Miner := ⟨chain, seed⟩
    let t ← transactionToMine now miner q
    return mine now miner t
  | .block hash => do
    let hash ← Parsed.fixed hash
    return do blockOrNotFound (← Handler.query (·.findBlock hash))
  | .submit => do
    let text ← Parsed.readable (reading.submission? request)
    let block ← submittedBlock text
    return submit block

def Route.needsRepository : Route → Bool
  | .health => false
  | .newWallet => false
  | _ => true

/-- Statistics are worked out when the repository is no longer held. -/
def Route.holdsRepository : Route → Bool
  | .stats _ => false
  | _ => true

def Service.handle (s : Service) (now : Int64) (fresh : Seed) (request : Request) :
    Reply × Service :=
  match Route.ofRequest? s.reading request with
  | none => (.response .notFound, s)
  | some route =>
    match handler s.reading now fresh request route with
    | .error response => (.response response, s)
    | .ok answer =>
      if route.needsRepository && !s.available then
        (.response (.plain 500 "repository unavailable"), s)
      else
        match answer.run.run s.repository with
        | (.ok response, r) => (.response response, { s with repository := r })
        | (.error (.response response), r) => (.response response, { s with repository := r })
        | (.error (.overflow cause), r) =>
          (.aborted cause, { s with repository := r, available := !route.holdsRepository })

end ChainState.Http
