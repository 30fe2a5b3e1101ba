import ChainState.Proofs.Keys

/-!
# Keys apart and in order

No two records have the same key. Numbers written with the highest byte first
and with one count of bytes come in the order of their bytes, so the height
records of one chain lie in the order of their heights, from zero upwards.
-/

set_option autoImplicit false

namespace ChainState

namespace Bytes

theorem compare_append_left (front a b : Bytes) :
    compare (front ++ a) (front ++ b) = compare a b := by
  induction front with
  | nil => rfl
  | cons x front ih =>
    have hx : compare x x = .eq := Std.ReflCmp.compare_self
    rw [List.cons_append, List.cons_append, List.compare_cons_cons, hx, Ordering.then, ih]

theorem compare_append {a b : Bytes} (hlength : a.length = b.length) (x y : Bytes) :
    compare (a ++ x) (b ++ y) = (compare a b).then (compare x y) := by
  induction a generalizing b with
  | nil =>
    obtain rfl : b = [] := List.length_eq_zero_iff.1 hlength.symm
    rfl
  | cons u a ih =>
    cases b with
    | nil => cases hlength
    | cons v b =>
      rw [List.cons_append, List.cons_append, List.compare_cons_cons, List.compare_cons_cons,
        ih (Nat.succ.inj hlength), Ordering.then_assoc]

theorem compare_byte (a b : UInt8) : compare a b = compare a.toNat b.toNat := by
  change compareOfLessAndEq a b = compareOfLessAndEq a.toNat b.toNat
  simp only [compareOfLessAndEq, UInt8.lt_iff_toNat_lt, ← UInt8.toNat_inj]

theorem compare_lowest (m n : Nat) :
    (compare (m / 256) (n / 256)).then (compare (m % 256) (n % 256)) = compare m n := by
  rcases Nat.lt_trichotomy (m / 256) (n / 256) with hlt | heq | hgt
  · have hmn : m < n := by omega
    rw [Nat.compare_eq_lt.2 hlt, Nat.compare_eq_lt.2 hmn]
    rfl
  · -- the lowest bytes decide, and what stands above them cancels
    have hlt : m % 256 < n % 256 ↔ m < n := by omega
    have hgt : n % 256 < m % 256 ↔ n < m := by omega
    rw [Nat.compare_eq_eq.2 heq, Ordering.then]
    simp only [Nat.compare_eq_ite_lt, hlt, hgt]
  · have hnm : n < m := by omega
    rw [Nat.compare_eq_gt.2 hgt, Nat.compare_eq_gt.2 hnm]
    rfl

theorem bigEndian_succ (width n : Nat) :
    bigEndian (width + 1) n = bigEndian width (n / 256) ++ [UInt8.ofNat (n % 256)] := by
  rw [bigEndian, littleEndian, List.reverse_cons, bigEndian]

theorem compare_bigEndian {width m n : Nat} (hm : m < count width) (hn : n < count width) :
    compare (bigEndian width m) (bigEndian width n) = compare m n := by
  induction width generalizing m n with
  | zero =>
    simp only [count, Nat.lt_one_iff] at hm hn
    rw [hm, hn]
    rfl
  | succ width ih =>
    have hlow (k : Nat) : (UInt8.ofNat (k % 256)).toNat = k % 256 :=
      UInt8.toNat_ofNat_of_lt' (Nat.mod_lt k (by decide))
    have hlast : compare [UInt8.ofNat (m % 256)] [UInt8.ofNat (n % 256)] =
        compare (m % 256) (n % 256) := by
      rw [List.compare_cons_cons, List.compare_nil_nil, Ordering.then_eq, compare_byte, hlow, hlow]
    rw [count] at hm hn
    rw [bigEndian_succ, bigEndian_succ,
      compare_append (by rw [length_bigEndian, length_bigEndian]),
      ih (Nat.div_lt_of_lt_mul hm) (Nat.div_lt_of_lt_mul hn), hlast, compare_lowest]

end Bytes

theorem compare_int64 (m n : Int64) : compare m n = compare m.toInt n.toInt := by
  change compareOfLessAndEq m n = compareOfLessAndEq m.toInt n.toInt
  simp only [compareOfLessAndEq, Int64.lt_iff_toInt_lt, ← Int64.toInt_inj]

theorem toNat_toUInt64 {n : Int64} (hn : 0 ≤ n) : (n.toUInt64.toNat : Int) = n.toInt := by
  have hzero : 0 ≤ n.toInt := Int64.le_iff_toInt_le.1 hn
  have hsign : n.toInt = if 2 * n.toUInt64.toNat < 2 ^ 64 then (n.toUInt64.toNat : Int)
      else (n.toUInt64.toNat : Int) - (2 ^ 64 : Nat) :=
    BitVec.toInt_eq_toNat_cond n.toBitVec
  have hlt := n.toUInt64.toNat_lt
  split_ifs at hsign <;> omega

namespace Key

theorem encode_height (chain : Bytes) (n : Int64) :
    (Key.height chain n).encode = (Bytes.ofString "idx" ++ part chain ++ Bytes.bigEndian 4 8) ++
      Bytes.bigEndian 8 n.toUInt64.toNat := by
  simp only [encode, compose, part, List.flatMap_cons, List.flatMap_nil, List.append_nil,
    Bytes.length_bigEndian, List.append_assoc]

theorem compare_encode_height (chain : Bytes) {m n : Int64} (hm : 0 ≤ m) (hn : 0 ≤ n) :
    compare (Key.height chain m).encode (Key.height chain n).encode = compare m n := by
  have hwords : compare m.toUInt64.toNat n.toUInt64.toNat = compare m n := by
    rw [compare_int64, ← toNat_toUInt64 hm, ← toNat_toUInt64 hn, Int.compare_eq_ite_lt,
      Nat.compare_eq_ite_lt]
    simp only [Int.ofNat_lt]
  rw [encode_height, encode_height, Bytes.compare_append_left, ← hwords]
  exact Bytes.compare_bigEndian m.toUInt64.toNat_lt n.toUInt64.toNat_lt

/-- Two records have one key only if they are of one kind and about the same
chain, block, account and height, however long the names of the chains are. The
height records of a chain are in the order of their heights. -/
theorem encode_distinct_ascending :
    (∀ k k' : Key, k.encode = k'.encode ↔ k = k') ∧
      ∀ (chain : Bytes) (m n : Int64), 0 ≤ m → 0 ≤ n →
        compare (Key.height chain m).encode (Key.height chain n).encode = compare m n :=
  ⟨fun _ _ => ⟨encode_inj, congrArg encode⟩,
    fun chain _ _ hm hn => compare_encode_height chain hm hn⟩

/-- A tip is no tail, and where the height carries into the next byte the order
is kept. -/
theorem encode_distinct_ascending_carry :
    (Key.tip [0x78]).encode ≠ (Key.tail [0x78]).encode ∧
      (0 : Int64) ≤ 255 ∧ (0 : Int64) ≤ 256 ∧
      compare (Key.height [0x78] 255).encode (Key.height [0x78] 256).encode = .lt := by
  obtain ⟨hdistinct, hascending⟩ := encode_distinct_ascending
  have hlow : (0 : Int64) ≤ 255 := by decide
  have hhigh : (0 : Int64) ≤ 256 := by decide
  have hkeys : Key.tip [0x78] ≠ Key.tail [0x78] := Key.noConfusion
  refine ⟨mt (hdistinct _ _).1 hkeys, hlow, hhigh, ?_⟩
  rw [hascending [0x78] 255 256 hlow hhigh]
  rfl

end Key

end ChainState
