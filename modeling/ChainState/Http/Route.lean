import ChainState.Bytes

/-!
# Requests and their routes

A request names a path below `/api/v1`. How the framework reads its parts is
left open here: the routes and what is done on them rest on no more of it than
that each part is either read or not.
-/

set_option autoImplicit false

namespace ChainState.Http

structure Request where
  method : String
  /-- The path, and the query after a question mark. A scheme and an
  authority may stand before them, and a fragment after them. -/
  target : String
  contentType : Option String
  body : String

inductive Route where
  | health
  | listChains
  | createChain
  | tip (chain : Bytes)
  | tail (chain : Bytes)
  | range (chain : Bytes) (query : Bytes)
  | account (chain publicKey : Bytes)
  | stats (chain : Bytes)
  | mine (chain : Bytes)
  | block (hash : Bytes)
  | submit
  | newWallet
  deriving DecidableEq

structure RangeQuery where
  start : Option Int64
  limit : Option Nat
  deriving DecidableEq

structure OpenRequest where
  chain : String
  secret : String
  balance : Int64
  timestamp : Option Int64

structure MineRequest where
  secret : String
  transaction : Option String
  note : Option String

/-- How requests are read. Queries and bodies need not be readable. -/
structure Reading where
  /-- The segments of the path, and the query. -/
  path : Request → List Bytes × Bytes
  /-- The parameter that a segment of the path stands for. -/
  segment : Bytes → Bytes
  range? : Bytes → Option RangeQuery
  opening? : Request → Option OpenRequest
  mining? : Request → Option MineRequest
  /-- The text of a submitted block. -/
  submission? : Request → Option String

def words (path : List String) : List Bytes := path.map Bytes.ofString

namespace Route

def ofSegments? (segment : Bytes → Bytes) (method : String) (query : Bytes)
    (path : List Bytes) : Option Route :=
  let get := method == "GET"
  let post := method == "POST"
  if path = words ["health", ""] then if get then some .health else none
  else if path = words ["chains", ""] then
    if get then some .listChains else if post then some .createChain else none
  else if path = words ["blocks", ""] then if post then some .submit else none
  else if path = words ["wallet", "new", ""] then if post then some .newWallet else none
  else
    match path with
    | [table, key, []] =>
      if table = Bytes.ofString "blocks" ∧ key ≠ [] ∧ get then some (.block (segment key))
      else none
    | [table, chain, part, []] =>
      if table ≠ Bytes.ofString "chains" ∨ chain = [] then none
      else
        let chain := segment chain
        if part = Bytes.ofString "mine" then if post then some (.mine chain) else none
        else if !get then none
        else if part = Bytes.ofString "tip" then some (.tip chain)
        else if part = Bytes.ofString "tail" then some (.tail chain)
        else if part = Bytes.ofString "blocks" then some (.range chain query)
        else if part = Bytes.ofString "stats" then some (.stats chain)
        else none
    | [table, chain, part, key, []] =>
      if table = Bytes.ofString "chains" ∧ chain ≠ [] ∧ part = Bytes.ofString "accounts"
          ∧ key ≠ [] ∧ get then
        some (.account (segment chain) (segment key))
      else none
    | _ => none

def ofRequest? (reading : Reading) (request : Request) : Option Route :=
  match reading.path request with
  | ([]::api::version::rest, query) =>
    if [api, version] = words ["api", "v1"] then
      ofSegments? reading.segment request.method query rest
    else none
  | _ => none

end Route

end ChainState.Http
