import ChainState.Block
import ChainState.Message
import ChainState.Vote

/-!
# What peers send each other

A payload is written as a dictionary with the number of its kind under `t`.
Its content stands under `v`, a chain that it is about under `i`.
-/

set_option autoImplicit false

namespace ChainState

inductive WireError where
  | malformed (cause : Bencode.ReadError)
  | unknownDataType (id : Int64)
  | unknownProtocol (id : Int64)
  | missingField (name : String)
  deriving DecidableEq

def WireError.message : WireError → String
  | .malformed cause => cause.message
  | .unknownDataType id => "unknown data type id " ++ toString id.toInt
  | .unknownProtocol id => "unknown protocol id " ++ toString id.toInt
  | .missingField name => "missing field " ++ "\x60" ++ name ++ "\x60"

variable [Crypto]

inductive Payload where
  | message (message : Message)
  /-- The first byte of each message hash, in order. -/
  | hashBytes (content : Bytes)
  | friendInfoRequest
  | friendInfo (content : Bytes)
  | blockRequest (hash : Hash)
  | block (block : Block)
  | transactionRequest (hash : Hash)
  | transaction (transaction : Transaction)
  | voteRequest (chain : Bytes)
  | vote (chain : Bytes) (vote : Vote)
  | headRequest (chain : Bytes)
  deriving DecidableEq

namespace Payload

def dataType : Payload → Int64
  | .message _ => 0
  | .hashBytes _ => 1
  | .friendInfoRequest => 2
  | .friendInfo _ => 3
  | .blockRequest _ => 4
  | .block _ => 5
  | .transactionRequest _ => 6
  | .transaction _ => 7
  | .voteRequest _ => 8
  | .vote _ _ => 9
  | .headRequest _ => 10

def typeLabel : Label := .ascii ['t']

def valueLabel : Label := .ascii ['v']

def chainLabel : Label := .ascii ['i']

def contentFields : Payload → List (Label × Bencode)
  | .message m => [(valueLabel, m.toBencode)]
  | .hashBytes content => [(valueLabel, .bytes content)]
  | .friendInfoRequest => []
  | .friendInfo content => [(valueLabel, .bytes content)]
  | .blockRequest hash => [(valueLabel, .bytes hash.bytes)]
  | .block b => [(valueLabel, b.toBencode)]
  | .transactionRequest hash => [(valueLabel, .bytes hash.bytes)]
  | .transaction t => [(valueLabel, t.toBencode)]
  | .voteRequest chain => [(chainLabel, .bytes chain)]
  | .vote chain v => [(chainLabel, .bytes chain), (valueLabel, v.toBencode)]
  | .headRequest chain => [(chainLabel, .bytes chain)]

def toBencode (p : Payload) : Bencode :=
  .record ((typeLabel, .int p.dataType)::p.contentFields)

def encode (p : Payload) : Bytes := p.toBencode.render

def valueOf (v : Bencode) : Except WireError Bencode :=
  match v.field? valueLabel with
  | some value => .ok value
  | none => .error (.missingField "v")

def ofDataType? (v : Bencode) (dataType : Int64) : Except WireError Payload :=
  let content := v.bytesAt valueLabel
  let chain := v.bytesAt chainLabel
  match dataType.toInt with
  | 0 => (valueOf v).map fun value => .message (.ofBencode value)
  | 1 => .ok (.hashBytes content)
  | 2 => .ok .friendInfoRequest
  | 3 => .ok (.friendInfo content)
  | 4 => .ok (.blockRequest (.ofBytes content))
  | 5 => (valueOf v).map fun value => .block (.ofBencode value)
  | 6 => .ok (.transactionRequest (.ofBytes content))
  | 7 => (valueOf v).map fun value => .transaction (.ofBencode value)
  | 8 => .ok (.voteRequest chain)
  | 9 => (valueOf v).map fun value => .vote chain (.ofBencode value)
  | 10 => .ok (.headRequest chain)
  | _ => .error (.unknownDataType dataType)

def ofBencode (v : Bencode) : Except WireError Payload :=
  match v.intAt? typeLabel with
  | some dataType => ofDataType? v dataType
  | none => .error (.missingField "t")

def decode (bytes : Bytes) : Except WireError Payload := do
  ofBencode (← (Bencode.decode bytes).mapError .malformed)

end Payload

end ChainState
