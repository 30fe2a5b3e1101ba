import ChainState.Bencode

/-!
# The order of values

Numbers come before byte strings, these before lists, and lists before
dictionaries. Lists are compared item by item, dictionaries field by field
and each field label first; what ends first is the smaller.
-/

set_option autoImplicit false

namespace ChainState.Bencode

mutual

def cmp : Bencode → Bencode → Ordering
  | .int a, .int b => compare a b
  | .int _, _ => .lt
  | .bytes _, .int _ => .gt
  | .bytes a, .bytes b => compare a b
  | .bytes _, _ => .lt
  | .list _, .int _ => .gt
  | .list _, .bytes _ => .gt
  | .list a, .list b => cmpItems a b
  | .list _, .dict _ => .lt
  | .dict a, .dict b => cmpFields a b
  | .dict _, _ => .gt

def cmpItems : List Bencode → List Bencode → Ordering
  | [], [] => .eq
  | [], _::_ => .lt
  | _::_, [] => .gt
  | a::as, b::bs => (cmp a b).then (cmpItems as bs)

def cmpFields : List (Label × Bencode) → List (Label × Bencode) → Ordering
  | [], [] => .eq
  | [], _::_ => .lt
  | _::_, [] => .gt
  | (k, a)::as, (l, b)::bs => ((compare k l).then (cmp a b)).then (cmpFields as bs)

end

instance : Ord Bencode := ⟨cmp⟩

instance : BEq Bencode := ⟨fun a b => cmp a b == .eq⟩

end ChainState.Bencode
