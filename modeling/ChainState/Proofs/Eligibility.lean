import ChainState.Proofs.Retarget

/-!
# A miner is eligible once it has waited

A miner finds the seconds it has to wait by a division, and a node checks a
block by a product. The two agree to the second, at the limits on an interval
and for miners without power too, so that the waiting time is the least
interval with which a block passes.
-/

set_option autoImplicit false

namespace ChainState.Consensus

open Check

variable {hit baseTarget : UInt64} {power : Int64}

/-- The longest interval that a hit is compared for keeps the product within
128 bits. -/
def Spans (baseTarget : UInt64) (power : Int64) : Prop :=
  (baseTarget.toNat : Int) * power.toInt * 539 < 2 ^ 128

theorem spans_of_le (h : power.toInt ≤ 288) (baseTarget : UInt64) : Spans baseTarget power := by
  have hword := baseTarget.toNat_lt
  have hweight : (baseTarget.toNat : Int) * power.toInt ≤ baseTarget.toNat * 288 :=
    Int.mul_le_mul_of_nonneg_left h (Int.natCast_nonneg _)
  rw [Spans]
  omega

theorem Spans.product_lt (h : Spans baseTarget power) (hpower : 0 < power.toInt) :
    baseTarget.toNat * power.toInt.toNat * 539 < UInt64.size * UInt64.size := by
  have hsize : UInt64.size * UInt64.size = 2 ^ 128 := by simp [UInt64.size]
  rw [Spans, ← Int.toNat_of_nonneg hpower.le] at h
  rw [hsize]
  exact_mod_cast h

def Passes (hit baseTarget : UInt64) (power interval : Int64) : Prop :=
  60 ≤ interval.toInt ∧ (540 ≤ interval.toInt ∨
    0 < power.toInt ∧ hit.toNat < baseTarget.toNat * power.toInt.toNat * interval.toInt.toNat)

instance (hit baseTarget : UInt64) (power interval : Int64) :
    Decidable (Passes hit baseTarget power interval) :=
  inferInstanceAs (Decidable (_ ∧ _))

theorem eligible_eq (h : Spans baseTarget power) (hit : UInt64) (interval : Int64) :
    eligible hit baseTarget power interval =
      .ok (decide (Passes hit baseTarget power interval)) := by
  have hmin : minBlockTime = 60 := rfl
  have hmax : maxBlockTime = 540 := rfl
  -- the product is formed last, for an interval below 540 and a positive power
  by_cases hearly : interval.toInt < minBlockTime
  · have hfails : ¬ Passes hit baseTarget power interval := fun hp => by
      have hlow := hp.1
      omega
    rw [eligible, if_pos hearly, decide_eq_false hfails]
    rfl
  by_cases hlate : (maxBlockTime : Int) ≤ interval.toInt
  · have hpasses : Passes hit baseTarget power interval := ⟨by omega, .inl hlate⟩
    rw [eligible, if_neg hearly, if_pos hlate, decide_eq_true hpasses]
    rfl
  have hcompared : Passes hit baseTarget power interval ↔ 0 < power.toInt ∧
      hit.toNat < baseTarget.toNat * power.toInt.toNat * interval.toInt.toNat := by
    rw [Passes]
    omega
  by_cases hidle : power.toInt ≤ 0
  · have hfails : ¬ Passes hit baseTarget power interval := fun hp =>
      hidle.not_gt (hcompared.1 hp).1
    rw [eligible, if_neg hearly, if_neg hlate, if_pos hidle, decide_eq_false hfails]
    rfl
  have hpower := Int.not_le.1 hidle
  have hlt := h.product_lt hpower
  have hbound : baseTarget.toNat * power.toInt.toNat * interval.toInt.toNat ≤
      baseTarget.toNat * power.toInt.toNat * 539 := Nat.mul_le_mul_left _ (by omega)
  have hweight : baseTarget.toNat * power.toInt.toNat ≤
      baseTarget.toNat * power.toInt.toNat * 539 := Nat.le_mul_of_pos_right _ (by decide)
  rw [eligible, if_neg hearly, if_neg hlate, if_neg hidle,
    decide_eq_decide.2 (hcompared.trans (and_iff_right hpower))]
  exact bind_eq_ok.2 ⟨_, product_ok hweight hlt, bind_eq_ok.2 ⟨_, product_ok hbound hlt, rfl⟩⟩

def wideWaitingTime (hit baseTarget : UInt64) (power : Int64) : Except Overflow Int64 := do
  if power.toInt ≤ 0 then return Int64.ofNat maxBlockTime
  else
    let weight ← product (max baseTarget.toNat 1) power.toInt.toNat
    let seconds ← sum (hit.toNat / weight) 1
    return Int64.ofNat (clampSeconds (min (seconds : Int) Int64.maxValue.toInt))

theorem wideWaitingTime_ok (hit baseTarget : UInt64) (power : Int64) :
    wideWaitingTime hit baseTarget power = .ok (waitingTime hit baseTarget power) := by
  rw [wideWaitingTime, waitingTime]
  split
  · rfl
  · have hhit : hit.toNat ≤ UInt64.size := hit.toNat_lt.le
    have hsize : UInt64.size = 18446744073709551616 := rfl
    have htarget : max baseTarget.toNat 1 ≤ UInt64.size := by
      have hword := baseTarget.toNat_lt
      omega
    have hpower : power.toInt.toNat < UInt64.size := by
      have hword := power.toInt_lt
      omega
    have hweight := Nat.mul_le_mul htarget hpower.le
    have hproduct := Nat.mul_lt_mul_of_le_of_lt htarget hpower (by decide : 0 < UInt64.size)
    have hseconds : hit.toNat / (max baseTarget.toNat 1 * power.toInt.toNat) + 1 ≤
        UInt64.size + 1 := Nat.add_le_add_right ((Nat.div_le_self _ _).trans hhit) 1
    exact bind_eq_ok.2 ⟨_, if_pos hproduct, bind_eq_ok.2 ⟨_, sum_ok hseconds (by decide), rfl⟩⟩

theorem waitingTime_of_idle (h : power.toInt ≤ 0) (hit baseTarget : UInt64) :
    waitingTime hit baseTarget power = 540 :=
  if_pos h

theorem toInt_waitingTime (h : 0 < power.toInt) (hpositive : 1 ≤ baseTarget.toNat)
    (hit : UInt64) : (waitingTime hit baseTarget power).toInt =
      clampSeconds ((hit.toNat / (baseTarget.toNat * power.toInt.toNat) + 1 : Nat) : Int) := by
  have hmax := Int64.toInt_maxValue
  have hclamped (n : Int) : clampSeconds (min n Int64.maxValue.toInt) = clampSeconds n := by
    have hlimit : maxBlockTime = 540 := rfl
    rw [clampSeconds, clampSeconds]
    omega
  rw [waitingTime, if_neg (Int.not_le.2 h), max_eq_left hpositive]
  simp only [hclamped]
  have hle := clampSeconds_le
    ((hit.toNat / (baseTarget.toNat * power.toInt.toNat) + 1 : Nat) : Int)
  exact Int64.toInt_ofNat_of_lt (by omega)

theorem waitingTime_le_iff (hpositive : 1 ≤ baseTarget.toNat) (hit : UInt64)
    (power interval : Int64) :
    waitingTime hit baseTarget power ≤ interval ↔ Passes hit baseTarget power interval := by
  rw [Int64.le_iff_toInt_le, Passes]
  rcases lt_or_ge 0 power.toInt with hpower | hidle
  · have hweight : 0 < baseTarget.toNat * power.toInt.toNat := Nat.mul_pos hpositive (by omega)
    -- the one second more makes the comparison strict where the division is exact
    have hdivided (seconds : Nat) :
        hit.toNat / (baseTarget.toNat * power.toInt.toNat) + 1 ≤ seconds ↔
          hit.toNat < baseTarget.toNat * power.toInt.toNat * seconds := by
      rw [Nat.succ_le_iff, Nat.div_lt_iff_lt_mul hweight, mul_comm seconds]
    rw [toInt_waitingTime hpower hpositive, clampSeconds_le_iff, and_iff_right hpower,
      ← hdivided]
    omega
  · have hwait : (540 : Int64).toInt = 540 := by decide
    rw [waitingTime_of_idle hidle, hwait]
    omega

theorem waitingTime_ge (hpositive : 1 ≤ baseTarget.toNat) (hit : UInt64) (power : Int64) :
    60 ≤ (waitingTime hit baseTarget power).toInt :=
  ((waitingTime_le_iff hpositive hit power _).1 (Int64.le_refl _)).1

/-- Where the product stays within 128 bits, a miner is eligible from its
waiting time on. -/
theorem eligible_eq_decide (hpositive : 1 ≤ baseTarget.toNat) (h : Spans baseTarget power)
    (hit : UInt64) (interval : Int64) : eligible hit baseTarget power interval =
      .ok (decide (waitingTime hit baseTarget power ≤ interval)) := by
  rw [eligible_eq h, decide_eq_decide.2 (waitingTime_le_iff hpositive hit power interval)]

/-- A base target that is positive and a power whose product stays within 128
bits decide eligibility without an overflow, and the waiting time is the least
interval that is long enough. -/
theorem waitingTime_least (hit : UInt64) (hpositive : 1 ≤ baseTarget.toNat) (power : Int64) :
    (power.toInt ≤ 288 → (baseTarget.toNat : Int) * power.toInt * 539 < 2 ^ 128) ∧
    ((baseTarget.toNat : Int) * power.toInt * 539 < 2 ^ 128 →
      wideWaitingTime hit baseTarget power = .ok (waitingTime hit baseTarget power) ∧
      (∀ interval, eligible hit baseTarget power interval =
        .ok (decide (waitingTime hit baseTarget power ≤ interval))) ∧
      IsLeast {interval | eligible hit baseTarget power interval = .ok true}
        (waitingTime hit baseTarget power)) := by
  refine ⟨fun h => spans_of_le h baseTarget, fun h => ?_⟩
  have heligible := eligible_eq_decide hpositive h hit
  refine ⟨wideWaitingTime_ok hit baseTarget power, heligible, ?_, ?_⟩
  · show eligible hit baseTarget power (waitingTime hit baseTarget power) = .ok true
    rw [heligible, decide_eq_true (Int64.le_refl _)]
  · intro interval (hinterval : eligible hit baseTarget power interval = .ok true)
    rw [heligible, Except.ok.injEq, decide_eq_true_eq] at hinterval
    exact hinterval

/-- The power may lie far beyond the window. -/
theorem waitingTime_least_strong :
    1 ≤ (0x200000000000 : UInt64).toNat ∧
    ((0x200000000000 : UInt64).toNat : Int) * (1000 : Int64).toInt * 539 < 2 ^ 128 ∧
    (∀ interval, eligible 0x8000000000000000 0x200000000000 1000 interval =
      .ok (decide (waitingTime 0x8000000000000000 0x200000000000 1000 ≤ interval))) ∧
    IsLeast {interval | eligible 0x8000000000000000 0x200000000000 1000 interval = .ok true}
      (waitingTime 0x8000000000000000 0x200000000000 1000) := by
  have hpositive : 1 ≤ (0x200000000000 : UInt64).toNat := by decide
  have hspans : ((0x200000000000 : UInt64).toNat : Int) * (1000 : Int64).toInt * 539 < 2 ^ 128 := by
    decide
  obtain ⟨-, h⟩ := waitingTime_least 0x8000000000000000 hpositive 1000
  obtain ⟨-, heligible, hleast⟩ := h hspans
  exact ⟨hpositive, hspans, heligible, hleast⟩

example : waitingTime 0x8000000000000000 0x200000000000 1000 = 263 := by decide

end ChainState.Consensus
