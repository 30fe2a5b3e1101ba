import ChainState.Record.Key
import Mathlib

/-!
# Keys are told apart by their bytes

The kinds of records have prefixes that differ within three bytes. Behind them
every part stands after its length, and at most the first part varies in
length. So no two keys have the same bytes.
-/

set_option autoImplicit false

namespace ChainState.Key

theorem length_part (bytes : Bytes) : (part bytes).length = bytes.length + 4 := by
  rw [part, List.length_append, Bytes.length_bigEndian, Nat.add_comm]

theorem append_eq_of_part {a b rest rest' : Bytes} (h : part a ++ rest = part b ++ rest') :
    a ++ rest = b ++ rest' := by
  simp only [part, List.append_assoc] at h
  exact (List.append_inj h (by simp [Bytes.length_bigEndian])).2

theorem part_inj {a b : Bytes} (h : part a = part b) : a = b := by
  simpa using append_eq_of_part (congrArg (· ++ []) h)

theorem parts_inj {a b x y : Bytes} (hlength : x.length = y.length)
    (h : part a ++ part x = part b ++ part y) : a = b ∧ x = y := by
  have hparts : (part x).length = (part y).length := by rw [length_part, length_part, hlength]
  obtain ⟨ha, hx⟩ := List.append_inj' (append_eq_of_part h) hparts
  exact ⟨ha, part_inj hx⟩

inductive Kind where
  | block
  | links
  | tip
  | tail
  | span
  | height
  | chains
  deriving DecidableEq

def Kind.table : Kind → Bytes
  | .block => Bytes.ofString "blk"
  | .links => Bytes.ofString "lnk"
  | .tip => Bytes.ofString "tip"
  | .tail => Bytes.ofString "tail"
  | .span => Bytes.ofString "acc"
  | .height => Bytes.ofString "idx"
  | .chains => Bytes.ofString "chains"

theorem Kind.length_table (kind : Kind) : 3 ≤ kind.table.length := by
  cases kind <;> decide +kernel

theorem Kind.eq_of_take_table {a b : Kind} (h : a.table.take 3 = b.table.take 3) : a = b := by
  revert h
  cases a <;> cases b <;> decide +kernel

def kind : Key → Kind
  | .block _ => .block
  | .links _ => .links
  | .tip _ => .tip
  | .tail _ => .tail
  | .span _ _ => .span
  | .height _ _ => .height
  | .chains => .chains

def parts : Key → List Bytes
  | .block hash | .links hash => [hash.bytes]
  | .tip chain | .tail chain => [chain]
  | .span chain account => [chain, account.bytes]
  | .height chain number => [chain, Bytes.bigEndian 8 number.toUInt64.toNat]
  | .chains => []

theorem encode_eq (k : Key) : k.encode = k.kind.table ++ k.parts.flatMap part := by
  cases k <;> rfl

theorem height_bytes_inj {m n : Int64}
    (h : Bytes.bigEndian 8 m.toUInt64.toNat = Bytes.bigEndian 8 n.toUInt64.toNat) : m = n := by
  have hlow : Bytes.ofInt64 m = Bytes.ofInt64 n := List.reverse_injective h
  rw [← Bytes.toInt64_ofInt64 m, hlow, Bytes.toInt64_ofInt64]

theorem encode_inj {k k' : Key} (h : k.encode = k'.encode) : k = k' := by
  have hkind : k.kind = k'.kind := by
    apply Kind.eq_of_take_table
    have htake := congrArg (List.take 3) h
    rwa [encode_eq, encode_eq, List.take_append_of_le_length k.kind.length_table,
      List.take_append_of_le_length k'.kind.length_table] at htake
  have hparts : k.parts.flatMap part = k'.parts.flatMap part := by
    rw [encode_eq, encode_eq, hkind] at h
    exact List.append_cancel_left h
  cases k <;> cases k'
  case chains.chains => rfl
  case block.block x y | links.links x y =>
    obtain rfl := FixedBytes.ext (part_inj (by simpa [parts] using hparts))
    rfl
  case tip.tip c d | tail.tail c d =>
    obtain rfl : c = d := part_inj (by simpa [parts] using hparts)
    rfl
  case span.span c x d y =>
    obtain ⟨rfl, hx⟩ := parts_inj (x.length_bytes.trans y.length_bytes.symm)
      (by simpa [parts] using hparts)
    rw [FixedBytes.ext hx]
  case height.height c m d n =>
    obtain ⟨rfl, hn⟩ := parts_inj
      ((Bytes.length_bigEndian 8 _).trans (Bytes.length_bigEndian 8 _).symm)
      (by simpa [parts] using hparts)
    rw [height_bytes_inj hn]
  all_goals cases hkind

end ChainState.Key
