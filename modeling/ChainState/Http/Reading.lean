import ChainState.Bytes.Hex
import ChainState.Http.MediaType
import ChainState.Http.Route
import ChainState.Http.Submitted
import ChainState.Text.Decimal

/-!
# The reading of requests

Percent signs in a path are resolved twice: before it is cut into segments,
except where they hide a percent sign, a slash or a plus sign, and then within
each segment. A body is read if its type says that it is JSON.
-/

set_option autoImplicit false

namespace ChainState.Http

def unescape (kept : List UInt8) : Bytes → Bytes
  | 0x25::high::low::rest =>
    match Hex.digitValue? high, Hex.digitValue? low with
    | some h, some l =>
      let b := UInt8.ofNat (h * 16 + l)
      if b ∈ kept then 0x25::unescape kept (high::low::rest) else b::unescape kept rest
    | _, _ => 0x25::unescape kept (high::low::rest)
  | b::rest => b::unescape kept rest
  | [] => []

def pieces (separator : UInt8) : Bytes → List Bytes
  | [] => [[]]
  | b::rest =>
    if b = separator then []::pieces separator rest
    else
      match pieces separator rest with
      | piece::others => (b::piece)::others
      | [] => [[b]]

def cut (separator : UInt8) (text : Bytes) : Bytes × Bytes :=
  (text.takeWhile (· != separator), (text.dropWhile (· != separator)).drop 1)

/-- The part of a target that names something within the node. Without a
slash at its front, a target has one only after a scheme and an authority. -/
def withinNode (target : Bytes) : Bytes :=
  let named := (cut 0x23 target).1
  match named with
  | 0x2F::_ => named
  | _ =>
    match named.dropWhile (· != 0x3A) with
    | 0x3A::0x2F::0x2F::rest => rest.dropWhile (fun b => b != 0x2F && b != 0x3F)
    | _ => []

def segments (path : Bytes) : List Bytes := pieces 0x2F (unescape [0x25, 0x2F, 0x2B] path)

/-- A query is a list of names and values. Plus signs stand for blanks. -/
def queryPairs (query : Bytes) : List (Bytes × Bytes) :=
  let decode (text : Bytes) : Bytes :=
    unescape [] (text.map (fun b => if b = 0x2B then 0x20 else b))
  ((pieces 0x26 query).filter (· ≠ [])).map fun pair =>
    let (name, value) := cut 0x3D pair
    (decode name, decode value)

def parameter? {α : Type} (name : String) (read : Bytes → Option α)
    (pairs : List (Bytes × Bytes)) : Option (Option α) :=
  match pairs.filter (fun p => p.1 == Bytes.ofString name) with
  | [] => some none
  | [p] => (read p.2).map some
  | _ => none

def limit? (text : Bytes) : Option Nat := do
  let n ← Decimal.toUnsigned? text
  if n < UInt32.size then some n else none

def rangeOfQuery? (query : Bytes) : Option RangeQuery := do
  let pairs := queryPairs query
  let start ← parameter? "from" Decimal.toInt64? pairs
  let limit ← parameter? "limit" limit? pairs
  return ⟨start, limit⟩

def body? (request : Request) (names : List String) : Option (List (Option Submitted)) :=
  if (request.contentType.bind MediaType.ofString?).any MediaType.isJson then
    (Submitted.ofText? request.body).bind (Submitted.fields? names)
  else none

def openRequest? (request : Request) : Option OpenRequest := do
  match ← body? request ["chain_id", "secret_key", "initial_balance", "timestamp"] with
  | [chain, secret, balance, timestamp] =>
    return {
      chain := ← Submitted.required Submitted.string? chain
      secret := ← Submitted.required Submitted.string? secret
      balance := ← Submitted.required Submitted.int64? balance
      timestamp := ← Submitted.optional Submitted.int64? timestamp }
  | _ => none

def mineRequest? (request : Request) : Option MineRequest := do
  match ← body? request ["secret_key", "transaction", "note"] with
  | [secret, transaction, note] =>
    return {
      secret := ← Submitted.required Submitted.string? secret
      transaction := ← Submitted.optional Submitted.string? transaction
      note := ← Submitted.optional Submitted.string? note }
  | _ => none

def submittedText? (request : Request) : Option String := do
  match ← body? request ["block"] with
  | [block] => Submitted.required Submitted.string? block
  | _ => none

def Reading.standard : Reading where
  path request :=
    let (path, query) := cut 0x3F (withinNode (Bytes.ofString request.target))
    (segments path, query)
  segment := unescape []
  range? := rangeOfQuery?
  opening? := openRequest?
  mining? := mineRequest?
  submission? := submittedText?

end ChainState.Http
