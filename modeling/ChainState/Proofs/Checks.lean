import ChainState.Validation
import Mathlib

/-!
# What a passed check establishes

A sequence of checks succeeds if each of them does in turn, and checked
arithmetic that succeeds gives the number that it would over the integers.
-/

set_option autoImplicit false

namespace ChainState

namespace Checked

theorem toInt_add {a b c : Int64} (h : add a b = .ok c) : c.toInt = a.toInt + b.toInt := by
  rw [add] at h
  split at h
  · next d hd =>
    cases h
    exact toInt_add? hd
  · cases h

theorem toInt_sub {a b c : Int64} (h : sub a b = .ok c) : c.toInt = a.toInt - b.toInt := by
  rw [sub] at h
  split at h
  · next d hd =>
    cases h
    exact toInt_sub? hd
  · cases h

theorem ofInt?_eq_some {n : Int} (hlow : -2 ^ 63 ≤ n) (hhigh : n < 2 ^ 63) :
    ofInt? n = some (Int64.ofInt n) := by
  have hmin := Int64.toInt_minValue
  have hmax := Int64.toInt_maxValue
  rw [ofInt?, if_pos]
  omega

theorem ofInt?_eq_some_iff {n : Int} {w : Int64} : ofInt? n = some w ↔ w.toInt = n := by
  refine ⟨toInt_ofInt?, ?_⟩
  rintro rfl
  rw [ofInt?_eq_some w.le_toInt w.toInt_lt, Int64.ofInt_toInt]

theorem ofInt?_eq_none {n : Int} (h : 2 ^ 63 ≤ n) : ofInt? n = none := by
  have hmax := Int64.toInt_maxValue
  rw [ofInt?, if_neg]
  omega

theorem add_eq_ok {a b : Int64} (hlow : -2 ^ 63 ≤ a.toInt + b.toInt)
    (hhigh : a.toInt + b.toInt < 2 ^ 63) : ∃ c, add a b = .ok c := by
  rw [add, add?, ofInt?_eq_some hlow hhigh]
  exact ⟨_, rfl⟩

theorem add_eq_error {a b : Int64} (h : 2 ^ 63 ≤ a.toInt + b.toInt) :
    add a b = .error .addition := by
  rw [add, add?, ofInt?_eq_none h]

theorem sub_eq_ok {a b : Int64} (hlow : -2 ^ 63 ≤ a.toInt - b.toInt)
    (hhigh : a.toInt - b.toInt < 2 ^ 63) : ∃ c, sub a b = .ok c := by
  rw [sub, sub?, ofInt?_eq_some hlow hhigh]
  exact ⟨_, rfl⟩

end Checked

namespace Check

variable {ε α β : Type}

theorem bind_eq_ok {x : Except ε α} {f : α → Except ε β} {y : β} :
    x >>= f = .ok y ↔ ∃ a, x = .ok a ∧ f a = .ok y := by
  cases x <;> simp [bind, Except.bind]

theorem pure_eq_ok {x y : α} : (pure x : Except ε α) = .ok y ↔ x = y := by
  simp [pure, Except.pure]

theorem require_eq_ok {p : Prop} [Decidable p] {e : ValidationError} {u : Unit} :
    require p e = .ok u ↔ p := by
  by_cases h : p <;> simp [require, h]

theorem ofQuery_eq_ok {q : Query α} {x : α} : ofQuery q = .ok x ↔ q = .ok x := by
  cases q <;> simp [ofQuery, Except.mapError]

theorem ofChecked_eq_ok {v : Except Overflow α} {x : α} : ofChecked v = .ok x ↔ v = .ok x := by
  cases v <;> simp [ofChecked, Except.mapError]

theorem ofOption_eq_ok {e : ValidationError} {o : Option α} {x : α} :
    ofOption e o = .ok x ↔ o = some x := by
  cases o <;> simp [ofOption]

theorem bind_eq_error {x : Except ε α} {f : α → Except ε β} {e : ε} :
    x >>= f = .error e ↔ x = .error e ∨ ∃ a, x = .ok a ∧ f a = .error e := by
  cases x <;> simp [bind, Except.bind]

theorem pure_ne_error {x : α} {e : ε} : (pure x : Except ε α) ≠ .error e := by
  simp [pure, Except.pure]

theorem require_eq_error {p : Prop} [Decidable p] {e e' : ValidationError} :
    require p e = .error e' ↔ ¬p ∧ e = e' := by
  by_cases h : p <;> simp [require, h]

theorem ofOption_eq_error {e e' : ValidationError} {o : Option α} :
    ofOption e o = .error e' ↔ o = none ∧ e = e' := by
  cases o <;> simp [ofOption]

theorem ofChecked_eq_error {v : Except Overflow α} {e : ValidationError} :
    ofChecked v = .error e ↔ ∃ cause, v = .error cause ∧ e = .overflow cause := by
  cases v <;> simp [ofChecked, Except.mapError, eq_comm]

end Check

theorem intervalAfter_eq_ok {earlier later waited : Int64} :
    intervalAfter earlier later = .ok waited ↔
      waited.toInt = later.toInt - earlier.toInt ∧ earlier < later := by
  have hzero : (0 : Int64).toInt = 0 := rfl
  rw [intervalAfter, ← Checked.ofInt?_eq_some_iff, ← Checked.sub?]
  cases hsub : Checked.sub? later earlier with
  | none => simp
  | some interval =>
    have hdifference := Checked.toInt_sub? hsub
    have hpositive : 0 < interval ↔ earlier < later := by
      rw [Int64.lt_iff_toInt_lt, Int64.lt_iff_toInt_lt]
      omega
    simp only [hpositive, Option.some.injEq]
    split
    · next hlater => simp [hlater]
    · next hlater => simp [hlater]

end ChainState
