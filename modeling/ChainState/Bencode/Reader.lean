import ChainState.Bencode
import ChainState.Text.Decimal
import ChainState.Bytes.Hex

/-!
# Reading a value

A reader moves a cursor over the input. Numbers may carry a sign and leading
zeros, labels may come in any order, and of two equal labels the later counts;
all else is refused, with the offset at which reading stopped. Lists and
dictionaries nest to a fixed depth: a reader is given the room that is left,
and passes one level less to what it contains.
-/

set_option autoImplicit false

namespace ChainState.Bencode

def maxDepth : Nat := 64

inductive ReadError where
  | unexpectedEnd (offset : Nat)
  | invalidInteger (offset : Nat)
  | invalidLength (offset : Nat)
  | unexpectedByte (byte : UInt8) (offset : Nat)
  | invalidLabel (offset : Nat)
  | trailingBytes (count : Nat)
  | tooDeep (limit offset : Nat)
  deriving DecidableEq, Repr

structure Cursor where
  offset : Nat
  rest : Bytes
  deriving DecidableEq, Repr

abbrev Reader (α : Type) := Cursor → Except ReadError (α × Cursor)

def Cursor.inputLength (c : Cursor) : Nat := c.offset + c.rest.length

def readIntUntil (mark : UInt8) : Reader Int64 := fun c =>
  let text := c.rest.takeWhile (· != mark)
  match c.rest.dropWhile (· != mark) with
  | [] => .error (.unexpectedEnd c.inputLength)
  | _::rest =>
    match Decimal.toInt64? text with
    | none => .error (.invalidInteger c.offset)
    | some n => .ok (n, ⟨c.offset + text.length + 1, rest⟩)

def readBytes : Reader Bytes := fun c => do
  let (length, body) ← readIntUntil 0x3A c
  match length.toInt with
  | .negSucc _ => .error (.invalidLength c.offset)
  | .ofNat n =>
    let content := body.rest.take n
    if content.length = n then .ok (content, ⟨body.offset + n, body.rest.drop n⟩)
    else .error (.unexpectedEnd body.inputLength)

/-- Items up to an `e`, which is passed over. Every item takes at least one
byte, so there are fewer items than bytes. -/
def readUntilEnd {α : Type} (item : Reader α) : Nat → Reader (List α)
  | 0, c => .error (.unexpectedEnd c.offset)
  | limit+1, c =>
    match c.rest with
    | [] => .error (.unexpectedEnd c.offset)
    | b::rest =>
      if b = 0x65 then .ok ([], ⟨c.offset + 1, rest⟩)
      else do
        let (x, c) ← item c
        let (xs, c) ← readUntilEnd item limit c
        return (x::xs, c)

def readField (value : Reader Bencode) : Reader (Label × Bencode) := fun c => do
  let (name, afterLabel) ← readBytes c
  match Label.ofBytes? name with
  | none => .error (.invalidLabel c.offset)
  | some label =>
    let (v, c) ← value afterLabel
    return ((label, v), c)

/-- One value, with lists and dictionaries nested at most `room` deep. -/
def readValue : Nat → Reader Bencode
  | room, c =>
    match c.rest with
    | [] => .error (.unexpectedEnd c.offset)
    | b::rest =>
      let inner : Cursor := ⟨c.offset + 1, rest⟩
      if b = 0x69 then do
        let (n, c) ← readIntUntil 0x65 inner
        return (.int n, c)
      else if b = 0x6C then
        match room with
        | 0 => .error (.tooDeep maxDepth c.offset)
        | room+1 => do
          let (items, c) ← readUntilEnd (readValue room) (rest.length + 1) inner
          return (.list items, c)
      else if b = 0x64 then
        match room with
        | 0 => .error (.tooDeep maxDepth c.offset)
        | room+1 => do
          let (fields, c) ← readUntilEnd (readField (readValue room)) (rest.length + 1) inner
          return (.record fields, c)
      else if Decimal.isDigit b then do
        let (content, c) ← readBytes c
        return (.bytes content, c)
      else .error (.unexpectedByte b c.offset)

def decode (input : Bytes) : Except ReadError Bencode := do
  let (value, c) ← readValue maxDepth ⟨0, input⟩
  if c.rest = [] then return value else .error (.trailingBytes c.rest.length)

def hexByte (b : UInt8) : String := Hex.encode [b]

def ReadError.message : ReadError → String
  | .unexpectedEnd offset => "unexpected end of input at offset " ++ toString offset
  | .invalidInteger offset => "invalid integer at offset " ++ toString offset
  | .invalidLength offset => "invalid string length at offset " ++ toString offset
  | .unexpectedByte b offset =>
    "unexpected byte 0x" ++ hexByte b ++ " at offset " ++ toString offset
  | .invalidLabel offset => "dictionary key is not valid utf-8 at offset " ++ toString offset
  | .trailingBytes count => toString count ++ " trailing bytes after entry"
  | .tooDeep limit offset =>
    "nesting deeper than " ++ toString limit ++ " levels at offset " ++ toString offset

end ChainState.Bencode
