import ChainState.Wire.Payload

/-!
# Envelopes

An envelope groups the payloads of one protocol. It keeps them as values, so
that a payload of an unknown kind is an error only where payloads are asked
for.
-/

set_option autoImplicit false

namespace ChainState

inductive Protocol where
  | communication
  | blockchain
  deriving DecidableEq, Repr

namespace Protocol

def id : Protocol → Int64
  | .communication => 0
  | .blockchain => 1

def ofId (id : Int64) : Except WireError Protocol :=
  match id.toInt with
  | 0 => .ok .communication
  | 1 => .ok .blockchain
  | _ => .error (.unknownProtocol id)

end Protocol

structure Envelope where
  protocol : Protocol
  entries : List Bencode

namespace Envelope

def protocolLabel : Label := .ascii ['p', 'i', 'd']

def entriesLabel : Label := .ascii ['p']

def push (e : Envelope) (entry : Bencode) : Envelope :=
  { e with entries := e.entries ++ [entry] }

def payloads [Crypto] (e : Envelope) : Except WireError (List Payload) :=
  e.entries.mapM Payload.ofBencode

def toBencode (e : Envelope) : Bencode :=
  .record [(protocolLabel, .int e.protocol.id), (entriesLabel, .list e.entries)]

def encode (e : Envelope) : Bytes := e.toBencode.render

def ofBencode (v : Bencode) : Except WireError Envelope :=
  match v.intAt? protocolLabel with
  | none => .error (.missingField "pid")
  | some id => (Protocol.ofId id).map fun protocol => ⟨protocol, v.listAt entriesLabel⟩

def decode (bytes : Bytes) : Except WireError Envelope := do
  ofBencode (← (Bencode.decode bytes).mapError .malformed)

end Envelope

end ChainState
