import ChainState.Text.Decimal
import Mathlib

/-!
# Decimals read back

The digits of a number stand for the number, so every signed word, and every
length below the limit of a signed word, is read back from its decimal form.
-/

set_option autoImplicit false

namespace ChainState

namespace Checked

@[simp] theorem ofInt?_toInt (w : Int64) : ofInt? w.toInt = some w := by
  rw [ofInt?, if_pos ⟨Int64.le_toInt w, Int64.toInt_le w⟩, Int64.ofInt_toInt]

end Checked

namespace Decimal

theorem toNat_digit (n : Nat) : (digit n).toNat = n % 10 + 48 := by
  simp [digit]
  omega

theorem isDigit_digit (n : Nat) : isDigit (digit n) = true := by
  have h := toNat_digit n
  simp only [isDigit, Bool.and_eq_true, decide_eq_true_eq, UInt8.le_iff_toNat_le, h]
  constructor
  · change 48 ≤ _
    omega
  · change _ ≤ 57
    omega

theorem before_append (n : Nat) (rest : Bytes) : before n rest = ofNat n ++ rest := by
  induction n using Nat.strongRecOn generalizing rest with
  | _ n ih =>
    by_cases hn : n < 10
    · simp only [ofNat, before.eq_def n, if_pos hn, List.cons_append, List.nil_append]
    · have hlt : n / 10 < n := by omega
      simp only [ofNat, before.eq_def n, if_neg hn]
      rw [ih _ hlt, ih _ hlt [digit n], List.append_assoc, List.cons_append, List.nil_append]

theorem ofNat_of_lt {n : Nat} (hn : n < 10) : ofNat n = [digit n] := by
  rw [ofNat, before, if_pos hn]

theorem ofNat_of_ge {n : Nat} (hn : ¬ n < 10) : ofNat n = ofNat (n / 10) ++ [digit n] := by
  rw [ofNat, before, if_neg hn, before_append]

theorem ofNat_ne_nil (n : Nat) : ofNat n ≠ [] := by
  by_cases hn : n < 10
  · simp [ofNat_of_lt hn]
  · simp [ofNat_of_ge hn]

theorem isDigit_of_mem_ofNat (n : Nat) : ∀ b ∈ ofNat n, isDigit b = true := by
  induction n using Nat.strongRecOn with
  | _ n ih =>
    by_cases hn : n < 10
    · simp [ofNat_of_lt hn, isDigit_digit]
    · have hlt : n / 10 < n := by omega
      intro b hb
      rw [ofNat_of_ge hn] at hb
      rcases List.mem_append.1 hb with hb | hb
      · exact ih _ hlt b hb
      · rw [List.mem_singleton.1 hb]
        exact isDigit_digit n

theorem value_concat (digits : Bytes) (b : UInt8) :
    value (digits ++ [b]) = 10 * value digits + (b.toNat - 48) := by
  simp [value, List.foldl_append]

theorem value_ofNat (n : Nat) : value (ofNat n) = n := by
  induction n using Nat.strongRecOn with
  | _ n ih =>
    by_cases hn : n < 10
    · rw [ofNat_of_lt hn, ← List.nil_append [digit n], value_concat, toNat_digit]
      simp [value]
      omega
    · have hlt : n / 10 < n := by omega
      rw [ofNat_of_ge hn, value_concat, ih _ hlt, toNat_digit]
      omega

theorem toNat?_ofNat (n : Nat) : toNat? (ofNat n) = some n := by
  have h : (ofNat n).all isDigit = true := List.all_eq_true.2 (isDigit_of_mem_ofNat n)
  rw [toNat?, if_pos ⟨ofNat_ne_nil n, h⟩, value_ofNat]

theorem toInt?_of_digits {text : Bytes} (h : ∀ b ∈ text, isDigit b = true) :
    toInt? text = (toNat? text).map Int.ofNat := by
  unfold toInt?
  split
  · exact absurd (h 0x2B (by simp)) (by decide)
  · exact absurd (h 0x2D (by simp)) (by decide)
  · rfl

theorem toInt?_ofInt (z : Int) : toInt? (ofInt z) = some z := by
  cases z with
  | ofNat n => simp [ofInt, toInt?_of_digits (isDigit_of_mem_ofNat n), toNat?_ofNat]
  | negSucc n => simp [ofInt, toInt?, toNat?_ofNat, Int.negSucc_eq]

theorem toInt64?_ofInt (w : Int64) : toInt64? (ofInt w.toInt) = some w := by
  simp [toInt64?, toInt?_ofInt]

theorem toInt64?_ofNat {n : Nat} (hn : n < 2 ^ 63) :
    ∃ w, toInt64? (ofNat n) = some w ∧ w.toInt = n := by
  have hmin : Int64.minValue.toInt ≤ (n : Int) := by
    rw [Int64.toInt_minValue]
    omega
  have hmax : (n : Int) ≤ Int64.maxValue.toInt := by
    rw [Int64.toInt_maxValue]
    omega
  refine ⟨Int64.ofInt n, ?_, Int64.toInt_ofInt_of_le (by omega) (by omega)⟩
  have hint : toInt? (ofNat n) = some (n : Int) := toInt?_ofInt (.ofNat n)
  rw [toInt64?, hint, Option.bind_some, Checked.ofInt?, if_pos ⟨hmin, hmax⟩]

end Decimal

end ChainState
