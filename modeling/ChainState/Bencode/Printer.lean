import ChainState.Bencode
import ChainState.Text.Decimal

/-!
# The canonical form of a value

Numbers stand between `i` and `e`, byte strings after their length and a
colon, lists between `l` and `e`, dictionaries between `d` and `e` with every
label as a byte string in front of its value. Numbers and lengths are decimal
without leading zeros.
-/

set_option autoImplicit false

namespace ChainState.Bencode

def renderBytes (content : Bytes) : Bytes := Decimal.ofNat content.length ++ 0x3A :: content

mutual

def render : Bencode → Bytes
  | .int value => 0x69 :: Decimal.ofInt value.toInt ++ [0x65]
  | .bytes content => renderBytes content
  | .list items => 0x6C :: renderItems items ++ [0x65]
  | .dict fields => 0x64 :: renderFields fields ++ [0x65]

def renderItems : List Bencode → Bytes
  | [] => []
  | item::items => item.render ++ renderItems items

def renderFields : List (Label × Bencode) → Bytes
  | [] => []
  | (label, value)::fields => renderBytes label.bytes ++ value.render ++ renderFields fields

end

end ChainState.Bencode
