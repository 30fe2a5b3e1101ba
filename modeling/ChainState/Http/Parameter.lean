import ChainState.Http.Response
import ChainState.Http.Route
import ChainState.Miner
import ChainState.Text.Blank

/-!
# Parameters of a request

What a request asks for is read before the repository is looked at. A
parameter that cannot be read is answered at once, with status 400.
-/

set_option autoImplicit false

namespace ChainState.Http

variable [Crypto]

abbrev Parsed (α : Type) := Except Response α

namespace Parsed

def chain (text : Bytes) : Parsed Bytes :=
  match Hex.decode? text with
  | some (b::rest) => .ok (b::rest)
  | _ => .error (.plain 400 "chain id must be non-empty hex")

def fixed {role : Role} (text : Bytes) : Parsed (FixedBytes role) :=
  match FixedBytes.ofHex text with
  | .ok x => .ok x
  | .error fault => .error (.plain 400 (fault.message role))

def trimmed (text : String) : Bytes := Bytes.ofString (Blank.trim text)

def seed (text : String) : Parsed Seed :=
  match FixedBytes.ofHex (trimmed text) with
  | .ok seed => .ok seed
  | .error _ => .error (.plain 400 "secret_key must be 32 bytes of hex")

def readable {α : Type} : Option α → Parsed α
  | some x => .ok x
  | none => .error .unreadable

end Parsed

def transactionToMine (now : Int64) (miner : Miner) (q : MineRequest) : Parsed Transaction :=
  match q.transaction with
  | none => .ok (miner.note now (Bytes.ofString (q.note.getD "")))
  | some text =>
    let refuse (reason : String) : Parsed Transaction :=
      .error (.plain 400 ("bad transaction: " ++ reason))
    match Hex.decode (Bytes.ofString text) with
    | .error e => refuse e.message
    | .ok bytes =>
      match Transaction.decode bytes with
      | .ok t => .ok t
      | .error e => refuse e.message

def submittedBlock (text : String) : Parsed Block :=
  match Hex.decode? (Parsed.trimmed text) with
  | none => .error (.plain 400 "block must be hex")
  | some bytes =>
    match Block.decode bytes with
    | .ok block => .ok block
    | .error e => .error (.plain 400 ("bad block: " ++ e.message))

end ChainState.Http
