import ChainState.Proofs.Checks

/-!
# Base targets follow the pace of the blocks

A base target moves by a thirty-second part for every block time by which an
interval was off, and an interval counts as no shorter than one minute and no
longer than nine. So no step moves it by more than a fortieth part. The
computation stays within words of 128 bits, and its rounding upsets neither
the order of the intervals nor that of the base targets.
-/

set_option autoImplicit false

namespace ChainState.Consensus

open Check

def sum (a b : Nat) : Except Overflow Nat :=
  if a + b < UInt64.size * UInt64.size then .ok (a + b) else .error .addition

def difference (a b : Nat) : Except Overflow Nat :=
  if b ≤ a then .ok (a - b) else .error .subtraction

theorem product_ok {a b n : Nat} (hab : a * b ≤ n) (hn : n < UInt64.size * UInt64.size) :
    product a b = .ok (a * b) :=
  if_pos (lt_of_le_of_lt hab hn)

theorem sum_ok {a b n : Nat} (hab : a + b ≤ n) (hn : n < UInt64.size * UInt64.size) :
    sum a b = .ok (a + b) :=
  if_pos (lt_of_le_of_lt hab hn)

theorem difference_ok {a b : Nat} (h : b ≤ a) : difference a b = .ok (a - b) :=
  if_pos h

theorem toNat_le_highestWord (w : UInt64) : w.toNat ≤ highestWord :=
  Nat.le_sub_one_of_lt w.toNat_lt

theorem clampSeconds_ge (n : Int) : 60 ≤ clampSeconds n := by
  have hmin : minBlockTime = 60 := rfl
  rw [clampSeconds]
  omega

theorem clampSeconds_le (n : Int) : clampSeconds n ≤ 540 := by
  have hmin : minBlockTime = 60 := rfl
  have hmax : maxBlockTime = 540 := rfl
  rw [clampSeconds]
  omega

theorem clampSeconds_mono {m n : Int} (h : m ≤ n) : clampSeconds m ≤ clampSeconds n := by
  rw [clampSeconds, clampSeconds]
  omega

theorem clampSeconds_le_iff {n bound : Int} :
    (clampSeconds n : Int) ≤ bound ↔ 60 ≤ bound ∧ (540 ≤ bound ∨ n ≤ bound) := by
  have hmin : minBlockTime = 60 := rfl
  have hmax : maxBlockTime = 540 := rfl
  rw [clampSeconds]
  omega

theorem adjustment_eq (previous seconds : Nat) :
    adjustment previous seconds = previous / 32 * seconds / 300 := by
  have hshare : previous * (UInt64.size / 32) / UInt64.size = previous / 32 := by
    simp only [UInt64.size, Nat.reduceDiv]
    omega
  rw [adjustment, hshare, blockTime]

theorem adjustment_le {seconds : Nat} (h : seconds ≤ 240) (previous : Nat) :
    adjustment previous seconds ≤ previous / 40 := by
  have hscaled : previous / 32 * seconds ≤ previous / 32 * 240 := Nat.mul_le_mul_left _ h
  rw [adjustment_eq]
  omega

theorem adjustment_mono {previous seconds more : Nat} (h : seconds ≤ more) :
    adjustment previous seconds ≤ adjustment previous more := by
  rw [adjustment_eq, adjustment_eq]
  exact Nat.div_le_div_right (Nat.mul_le_mul_left _ h)

theorem adjustment_mono_previous {previous other : Nat} (h : previous ≤ other) (seconds : Nat) :
    adjustment previous seconds ≤ adjustment other seconds := by
  rw [adjustment_eq, adjustment_eq]
  exact Nat.div_le_div_right (Nat.mul_le_mul_right _ (Nat.div_le_div_right h))

theorem adjustment_le_add {previous other seconds : Nat} (h : previous ≤ other)
    (hseconds : seconds ≤ 300) :
    adjustment other seconds ≤ adjustment previous seconds + (other - previous) := by
  obtain ⟨d, hd⟩ := Nat.exists_eq_add_of_le (Nat.div_le_div_right (c := 32) h)
  have hgain : d * seconds ≤ d * 300 := Nat.mul_le_mul_left d hseconds
  rw [adjustment_eq, adjustment_eq, hd, add_mul]
  omega

def adjusted (previous seconds : Nat) : Nat :=
  if seconds < blockTime then previous - adjustment previous (blockTime - seconds)
  else previous + adjustment previous (seconds - blockTime)

theorem adjusted_of_lt {seconds : Nat} (h : seconds < 300) (previous : Nat) :
    adjusted previous seconds = previous - adjustment previous (300 - seconds) :=
  if_pos h

theorem adjusted_of_ge {seconds : Nat} (h : 300 ≤ seconds) (previous : Nat) :
    adjusted previous seconds = previous + adjustment previous (seconds - 300) :=
  if_neg (Nat.not_lt.2 h)

theorem adjusted_blockTime (previous : Nat) : adjusted previous 300 = previous := by
  rw [adjusted_of_ge le_rfl, adjustment_eq]
  simp

theorem adjusted_mono_seconds (previous : Nat) : Monotone (adjusted previous) := by
  intro seconds more h
  rcases Nat.lt_or_ge seconds 300 with hquick | hslow
  · rw [adjusted_of_lt hquick]
    rcases Nat.lt_or_ge more 300 with hquick' | hslow'
    · rw [adjusted_of_lt hquick']
      exact Nat.sub_le_sub_left (adjustment_mono (by omega)) previous
    · rw [adjusted_of_ge hslow']
      omega
  · rw [adjusted_of_ge hslow, adjusted_of_ge (hslow.trans h)]
    exact Nat.add_le_add_left (adjustment_mono (by omega)) previous

theorem adjusted_mono {previous other : Nat} (h : previous ≤ other) (seconds : Nat) :
    adjusted previous seconds ≤ adjusted other seconds := by
  rcases Nat.lt_or_ge seconds 300 with hquick | hslow
  · have hgain := adjustment_le_add h (show 300 - seconds ≤ 300 by omega)
    rw [adjusted_of_lt hquick, adjusted_of_lt hquick]
    omega
  · rw [adjusted_of_ge hslow, adjusted_of_ge hslow]
    exact Nat.add_le_add h (adjustment_mono_previous h _)

theorem adjusted_near {seconds : Nat} (hlow : 60 ≤ seconds) (hhigh : seconds ≤ 540)
    (previous : Nat) : previous - previous / 40 ≤ adjusted previous seconds ∧
      adjusted previous seconds ≤ previous + previous / 40 := by
  rcases Nat.lt_or_ge seconds 300 with hquick | hslow
  · have hpart := adjustment_le (show 300 - seconds ≤ 240 by omega) previous
    rw [adjusted_of_lt hquick]
    omega
  · have hpart := adjustment_le (show seconds - 300 ≤ 240 by omega) previous
    rw [adjusted_of_ge hslow]
    omega

theorem toNat_nextBaseTarget (previous : UInt64) (interval : Int64) :
    (nextBaseTarget previous interval).toNat =
      max (2 ^ 32) (min (adjusted previous.toNat (clampSeconds interval.toInt)) (2 ^ 64 - 1)) := by
  have hlow : lowestBaseTarget = 2 ^ 32 := rfl
  have hhigh : highestWord = 2 ^ 64 - 1 := rfl
  rw [nextBaseTarget, UInt64.toNat_ofNat_of_lt' (by rw [hlow, hhigh, UInt64.size]; omega)]
  rfl

theorem lowest_le_nextBaseTarget (previous : UInt64) (interval : Int64) :
    2 ^ 32 ≤ (nextBaseTarget previous interval).toNat := by
  rw [toNat_nextBaseTarget]
  exact le_max_left _ _

theorem nextBaseTarget_mono_interval (previous : UInt64) {interval longer : Int64}
    (h : interval ≤ longer) :
    nextBaseTarget previous interval ≤ nextBaseTarget previous longer := by
  have hseconds := clampSeconds_mono (Int64.le_iff_toInt_le.1 h)
  have hadjusted := adjusted_mono_seconds previous.toNat hseconds
  rw [UInt64.le_iff_toNat_le, toNat_nextBaseTarget, toNat_nextBaseTarget]
  omega

theorem nextBaseTarget_mono {previous higher : UInt64} (h : previous ≤ higher) (interval : Int64) :
    nextBaseTarget previous interval ≤ nextBaseTarget higher interval := by
  have hadjusted := adjusted_mono (UInt64.le_iff_toNat_le.1 h) (clampSeconds interval.toInt)
  rw [UInt64.le_iff_toNat_le, toNat_nextBaseTarget, toNat_nextBaseTarget]
  omega

variable {previous : UInt64}

theorem nextBaseTarget_blockTime (h : 2 ^ 32 ≤ previous.toNat) :
    nextBaseTarget previous 300 = previous := by
  have hword := previous.toNat_lt
  have hseconds : clampSeconds (300 : Int64).toInt = 300 := by decide
  apply UInt64.toNat_inj.1
  rw [toNat_nextBaseTarget, hseconds, adjusted_blockTime]
  omega

theorem nextBaseTarget_near (h : 2 ^ 32 ≤ previous.toNat) (interval : Int64) :
    previous.toNat - previous.toNat / 40 ≤ (nextBaseTarget previous interval).toNat ∧
      (nextBaseTarget previous interval).toNat ≤ previous.toNat + previous.toNat / 40 := by
  have hword := previous.toNat_lt
  have hnear := adjusted_near (clampSeconds_ge interval.toInt) (clampSeconds_le interval.toInt)
    previous.toNat
  rw [toNat_nextBaseTarget]
  omega

def wideAdjustment (previous seconds : Nat) : Except Overflow Nat := do
  let share ← product previous (UInt64.size / 32)
  let scaled ← product (share / UInt64.size) seconds
  return scaled / blockTime

def wideAdjusted (previous seconds : Nat) : Except Overflow Nat := do
  if seconds < blockTime then
    let delta ← wideAdjustment previous (← difference blockTime seconds)
    difference previous delta
  else
    let delta ← wideAdjustment previous (← difference seconds blockTime)
    sum previous delta

/-- The next base target, step by step in words of 128 bits. -/
def wideNextBaseTarget (previous : UInt64) (interval : Int64) : Except Overflow UInt64 := do
  let next ← wideAdjusted previous.toNat (clampSeconds interval.toInt)
  return UInt64.ofNat (max lowestBaseTarget (min next highestWord))

theorem wideAdjustment_ok (previous : UInt64) {seconds : Nat} (h : seconds ≤ 540) :
    wideAdjustment previous.toNat seconds = .ok (adjustment previous.toNat seconds) := by
  have hword : previous.toNat ≤ UInt64.size := previous.toNat_lt.le
  have hshare : previous.toNat * (UInt64.size / 32) ≤ UInt64.size * (UInt64.size / 32) :=
    Nat.mul_le_mul_right _ hword
  have hscaled : previous.toNat * (UInt64.size / 32) / UInt64.size * seconds ≤
      UInt64.size / 32 * 540 :=
    Nat.mul_le_mul (Nat.div_le_of_le_mul hshare) h
  exact bind_eq_ok.2 ⟨_, product_ok hshare (by simp [UInt64.size]),
    bind_eq_ok.2 ⟨_, product_ok hscaled (by simp [UInt64.size]), rfl⟩⟩

theorem wideAdjusted_ok (previous : UInt64) {seconds : Nat} (hlow : 60 ≤ seconds)
    (hhigh : seconds ≤ 540) :
    wideAdjusted previous.toNat seconds = .ok (adjusted previous.toNat seconds) := by
  have htime : blockTime = 300 := rfl
  have hword : previous.toNat ≤ UInt64.size := previous.toNat_lt.le
  rw [wideAdjusted, adjusted]
  split
  · next hquick =>
    have hpart := adjustment_le (show blockTime - seconds ≤ 240 by omega) previous.toNat
    have hdelta := wideAdjustment_ok previous (show blockTime - seconds ≤ 540 by omega)
    exact bind_eq_ok.2 ⟨_, difference_ok hquick.le,
      bind_eq_ok.2 ⟨_, hdelta, difference_ok (by omega)⟩⟩
  · next hslow =>
    have hpart := adjustment_le (show seconds - blockTime ≤ 240 by omega) previous.toNat
    have hdelta := wideAdjustment_ok previous (show seconds - blockTime ≤ 540 by omega)
    have hsum : previous.toNat + adjustment previous.toNat (seconds - blockTime) ≤
        UInt64.size + UInt64.size := by omega
    exact bind_eq_ok.2 ⟨_, difference_ok (Nat.not_lt.1 hslow),
      bind_eq_ok.2 ⟨_, hdelta, sum_ok hsum (by decide)⟩⟩

/-- Nothing in the computation of a base target leaves 128 bits or falls below
zero. -/
theorem wideNextBaseTarget_ok (previous : UInt64) (interval : Int64) :
    wideNextBaseTarget previous interval = .ok (nextBaseTarget previous interval) :=
  bind_eq_ok.2 ⟨_, wideAdjusted_ok previous (clampSeconds_ge _) (clampSeconds_le _), rfl⟩

/-- The next base target is computed without an overflow. It keeps within its
limits and follows both the interval and the base target before it; one that
is within the limits moves by no more than a fortieth part, down after a quick
block and up after a slow one. -/
theorem nextBaseTarget_follows (previous : UInt64) (interval : Int64) :
    wideNextBaseTarget previous interval = .ok (nextBaseTarget previous interval) ∧
    2 ^ 32 ≤ (nextBaseTarget previous interval).toNat ∧
    (nextBaseTarget previous interval).toNat ≤ 2 ^ 64 - 1 ∧
    (∀ longer, interval ≤ longer →
      nextBaseTarget previous interval ≤ nextBaseTarget previous longer) ∧
    (∀ higher, previous ≤ higher →
      nextBaseTarget previous interval ≤ nextBaseTarget higher interval) ∧
    (2 ^ 32 ≤ previous.toNat →
      nextBaseTarget previous 300 = previous ∧
      (interval < 300 → previous.toNat - previous.toNat / 40 ≤
          (nextBaseTarget previous interval).toNat ∧
        (nextBaseTarget previous interval).toNat ≤ previous.toNat) ∧
      (300 < interval → previous.toNat ≤ (nextBaseTarget previous interval).toNat ∧
        (nextBaseTarget previous interval).toNat ≤ previous.toNat + previous.toNat / 40)) := by
  refine ⟨wideNextBaseTarget_ok previous interval, lowest_le_nextBaseTarget previous interval,
    toNat_le_highestWord _, fun _ => nextBaseTarget_mono_interval previous,
    fun _ h => nextBaseTarget_mono h interval, fun hprevious => ?_⟩
  refine ⟨nextBaseTarget_blockTime hprevious, ?_, ?_⟩
  · intro hquick
    have hmono := nextBaseTarget_mono_interval previous (Int64.le_of_lt hquick)
    rw [nextBaseTarget_blockTime hprevious, UInt64.le_iff_toNat_le] at hmono
    exact ⟨(nextBaseTarget_near hprevious interval).1, hmono⟩
  · intro hslow
    have hmono := nextBaseTarget_mono_interval previous (Int64.le_of_lt hslow)
    rw [nextBaseTarget_blockTime hprevious, UInt64.le_iff_toNat_le] at hmono
    exact ⟨hmono, (nextBaseTarget_near hprevious interval).2⟩

theorem nextBaseTarget_follows_genesis :
    2 ^ 32 ≤ genesisBaseTarget.toNat ∧ (60 : Int64) < 300 ∧
    wideNextBaseTarget genesisBaseTarget 60 = .ok (nextBaseTarget genesisBaseTarget 60) ∧
    nextBaseTarget genesisBaseTarget 300 = genesisBaseTarget ∧
    genesisBaseTarget.toNat - genesisBaseTarget.toNat / 40 ≤
      (nextBaseTarget genesisBaseTarget 60).toNat ∧
    (nextBaseTarget genesisBaseTarget 60).toNat ≤ genesisBaseTarget.toNat := by
  have hgenesis : 2 ^ 32 ≤ genesisBaseTarget.toNat := by decide
  have hquick : (60 : Int64) < 300 := by decide
  obtain ⟨hwide, -, -, -, -, hnear⟩ := nextBaseTarget_follows genesisBaseTarget 60
  obtain ⟨hsame, hlower, -⟩ := hnear hgenesis
  exact ⟨hgenesis, hquick, hwide, hsame, hlower hquick⟩

end ChainState.Consensus
