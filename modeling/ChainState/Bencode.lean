import ChainState.Bytes
import ChainState.SortedMap
import ChainState.Text.Utf8

/-!
# Bencode values

A value is a number, a byte string, a list of values, or a dictionary whose
labels are well-formed UTF-8. The fields of a dictionary stand in ascending
order of their labels' bytes.
-/

set_option autoImplicit false

namespace ChainState

structure Label where
  bytes : Bytes
  wellFormed : Utf8.wellFormed bytes = true
  deriving DecidableEq

namespace Label

theorem ext {a b : Label} (h : a.bytes = b.bytes) : a = b := by
  cases a
  cases b
  cases h
  rfl

def ofBytes? (bytes : Bytes) : Option Label :=
  if h : Utf8.wellFormed bytes = true then some ⟨bytes, h⟩ else none

def ascii (letters : List Char) : Label :=
  ⟨(letters.map (fun c => UInt8.ofNat c.toNat)).filter (· ≤ 0x7F),
    Utf8.wellFormed_of_ascii _ (by simp)⟩

instance : Ord Label := ⟨fun a b => compare a.bytes b.bytes⟩

instance : Std.TransOrd Label where
  eq_swap {a b} := @Std.OrientedCmp.eq_swap Bytes compare _ a.bytes b.bytes
  isLE_trans {a b c} := @Std.TransCmp.isLE_trans Bytes compare _ a.bytes b.bytes c.bytes

instance : Std.LawfulEqOrd Label where
  compare_self {a} := @Std.ReflCmp.compare_self Bytes compare _ a.bytes
  eq_of_compare h := ext (@Std.LawfulEqCmp.eq_of_compare Bytes compare _ _ _ h)

end Label

inductive Bencode where
  | int (value : Int64)
  | bytes (content : Bytes)
  | list (items : List Bencode)
  | dict (fields : List (Label × Bencode))

namespace Bencode

instance : Inhabited Bencode := ⟨.dict []⟩

/-- A dictionary of the given fields; of two with one label the later counts. -/
def record (fields : List (Label × Bencode)) : Bencode :=
  .dict (fields.foldl (fun d f => Ascending.insert f.1 f.2 d) [])

def insert (target : Bencode) (label : Label) (value : Bencode) : Bencode :=
  match target with
  | .dict fields => .dict (Ascending.insert label value fields)
  | other => other

def erase (label : Label) : Bencode → Bencode
  | .dict fields => .dict (Ascending.erase label fields)
  | other => other

def field? (label : Label) : Bencode → Option Bencode
  | .dict fields => Ascending.find? label fields
  | _ => none

def bytes? : Bencode → Option Bytes
  | .bytes content => some content
  | _ => none

def int? : Bencode → Option Int64
  | .int value => some value
  | _ => none

def list? : Bencode → Option (List Bencode)
  | .list items => some items
  | _ => none

def bytesAt? (label : Label) (value : Bencode) : Option Bytes :=
  (value.field? label).bind bytes?

def intAt? (label : Label) (value : Bencode) : Option Int64 :=
  (value.field? label).bind int?

/-- An absent field, or one of another kind, reads as empty. -/
def bytesAt (label : Label) (value : Bencode) : Bytes := (value.bytesAt? label).getD []

def int64At (label : Label) (value : Bencode) : Int64 := (value.bytesAt label).toInt64

def uint64At (label : Label) (value : Bencode) : UInt64 := (value.bytesAt label).toUInt64

def int32At (label : Label) (value : Bencode) : Int32 := (value.bytesAt label).toInt32

def listAt (label : Label) (value : Bencode) : List Bencode :=
  ((value.field? label).bind list?).getD []

mutual

def depth : Bencode → Nat
  | .int _ => 0
  | .bytes _ => 0
  | .list items => depthItems items + 1
  | .dict fields => depthFields fields + 1

def depthItems : List Bencode → Nat
  | [] => 0
  | item::items => max item.depth (depthItems items)

def depthFields : List (Label × Bencode) → Nat
  | [] => 0
  | (_, value)::fields => max value.depth (depthFields fields)

end

mutual

/-- The fields of every dictionary within the value ascend. -/
def Ordered : Bencode → Prop
  | .int _ => True
  | .bytes _ => True
  | .list items => OrderedItems items
  | .dict fields => Ascending.Sorted fields ∧ OrderedFields fields

def OrderedItems : List Bencode → Prop
  | [] => True
  | item::items => item.Ordered ∧ OrderedItems items

def OrderedFields : List (Label × Bencode) → Prop
  | [] => True
  | (_, value)::fields => value.Ordered ∧ OrderedFields fields

end

end Bencode

end ChainState
