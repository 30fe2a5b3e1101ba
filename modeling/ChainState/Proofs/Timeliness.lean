import ChainState.Proofs.Balances
import ChainState.Proofs.Difficulty
import ChainState.Proofs.Power

/-!
# The eligible timestamp is exact

A miner learns beforehand from which moment on it may extend the tip. What it
builds at that moment or later is not refused for its time, and what it builds
before is. Where there is no such moment left, it is refused whenever it is
built.
-/

set_option autoImplicit false

namespace ChainState

/-- The errors by which a block is refused for its time. -/
def ValidationError.Untimely : ValidationError → Prop
  | .badTimestamp _ _ | .notEligible => True
  | _ => False

namespace Check

variable {α β : Type}

def Timely (x : Check α) : Prop := ∀ e, x = .error e → ¬ e.Untimely

theorem timely_ok (a : α) : Timely (.ok a) := fun _ h => by cases h

theorem timely_error {e : ValidationError} : Timely (.error e : Check α) ↔ ¬ e.Untimely :=
  ⟨fun h => h e rfl, fun h _ he => by cases he; exact h⟩

theorem timely_bind {x : Check α} {f : α → Check β} :
    Timely (x >>= f) ↔ Timely x ∧ ∀ a, x = .ok a → Timely (f a) := by
  cases x with
  | error e =>
    show Timely (.error e) ↔ _
    rw [timely_error, timely_error]
    simp
  | ok a =>
    show Timely (f a) ↔ _
    simp [timely_ok]

theorem timely_bind_ok {x : Check α} {f : α → Check β} {a : α} (h : x = .ok a) :
    Timely (x >>= f) ↔ Timely (f a) := by
  rw [h]
  rfl

theorem timely_bind_iff {x : Check α} {f : α → Check β} {p : α → Prop}
    (hx : Timely x ↔ ∃ a, x = .ok a) (hf : ∀ a, x = .ok a → (Timely (f a) ↔ p a)) :
    Timely (x >>= f) ↔ ∃ a, x = .ok a ∧ p a := by
  rw [timely_bind, hx]
  constructor
  · rintro ⟨⟨a, ha⟩, hrest⟩
    exact ⟨a, ha, (hf a ha).1 (hrest a ha)⟩
  · rintro ⟨a, rfl, hp⟩
    refine ⟨⟨a, rfl⟩, fun b hb => ?_⟩
    obtain rfl : a = b := Except.ok.inj hb
    exact (hf a rfl).2 hp

theorem timely_pure (a : α) : Timely (pure a) := timely_ok a

theorem timely_require {p : Prop} [Decidable p] {e : ValidationError} :
    Timely (require p e) ↔ (e.Untimely → p) := by
  by_cases h : p
  · simp [require, h, timely_ok]
  · simp [require, h, timely_error]

theorem timely_ofOption {e : ValidationError} {o : Option α} :
    Timely (ofOption e o) ↔ (e.Untimely → o ≠ none) := by
  cases o with
  | none => simp [ofOption, timely_error]
  | some a => simp [ofOption, timely_ok]

theorem timely_ofQuery (q : Query α) : Timely (ofQuery q) := by
  cases q with
  | error e => exact timely_error.2 id
  | ok a => exact timely_ok a

theorem timely_ofChecked (v : Except Overflow α) : Timely (ofChecked v) := by
  cases v with
  | error e => exact timely_error.2 id
  | ok a => exact timely_ok a

end Check

open Check

theorem timely_intervalAfter {earlier later : Int64} :
    Timely (intervalAfter earlier later) ↔ ∃ waited, intervalAfter earlier later = .ok waited := by
  rw [intervalAfter]
  split
  · split
    · exact iff_of_true (timely_ok _) ⟨_, rfl⟩
    · exact iff_of_false (fun h => timely_error.1 h trivial) (by simp)
  · exact iff_of_false (fun h => timely_error.1 h trivial) (by simp)

section

variable [Crypto]

theorem timely_childHeight (parent : Block) : Timely (childHeight parent) :=
  timely_ofOption.2 False.elim

variable {r : Repository} {m : Miner} {t : Transaction} {parent : Block}
  {power timestamp : Int64}

theorem timely_holdingOf (r : Repository) (chain : Bytes) (pk : PublicKey) :
    Timely (holdingOf r chain pk) :=
  timely_bind.2 ⟨timely_ofQuery _, fun _ _ => timely_pure _⟩

theorem timely_ledgerBefore (r : Repository) (miner : PublicKey) (t : Transaction) :
    Timely (ledgerBefore r miner t) := by
  simp only [ledgerBefore, timely_bind, timely_holdingOf, timely_pure, implies_true, and_self]

theorem timely_postStates (r : Repository) (miner : PublicKey) (t : Transaction) :
    Timely (postStates r miner t) := by
  refine timely_bind.2 ⟨timely_ledgerBefore r miner t, fun before _ => ?_⟩
  rw [statesAfter]
  split
  · refine timely_bind.2 ⟨timely_require.2 False.elim, fun _ _ => ?_⟩
    refine timely_bind.2 ⟨timely_ofOption.2 False.elim, fun _ _ => ?_⟩
    refine timely_bind.2 ⟨timely_require.2 False.elim, fun _ _ => ?_⟩
    exact timely_bind.2 ⟨timely_ofChecked _, fun _ _ => timely_pure _⟩
  · exact timely_pure _

namespace Miner

def wait (m : Miner) (parent : Block) (power : Int64) : Int64 :=
  Consensus.waitingTime
    (Consensus.hit (Consensus.generationSignature parent.generationSignature m.key))
    parent.baseTarget power

theorem eligibleFrom_eq (hpower : r.effectivePower m.chain m.key = .ok power) (parent : Block) :
    m.eligibleFrom r parent = ofOption (.badTimestamp Int64.maxValue parent.timestamp)
      (Checked.add? parent.timestamp (m.wait parent power)) := by
  rw [eligibleFrom, hpower]
  rfl

/-- A block is not refused for its time just if the miner has waited. -/
theorem timely_buildAt (htip : r.tip m.chain = .ok (some parent))
    (ht : validateTransaction t m.chain = .ok ())
    (hpower : r.effectivePower m.chain m.key = .ok power) (hwindow : power.toInt ≤ 288)
    (hpositive : 1 ≤ parent.baseTarget.toNat) :
    Timely (m.buildAt r t timestamp) ↔
      ∃ waited, intervalAfter parent.timestamp timestamp = .ok waited ∧
        m.wait parent power ≤ waited := by
  have heligible := Consensus.eligible_eq_decide hpositive
    (Consensus.spans_of_le hwindow parent.baseTarget)
    (Consensus.hit (Consensus.generationSignature parent.generationSignature m.key))
  rw [buildAt, timely_bind_ok (ofQuery_eq_ok.2 htip), timely_bind_ok (ofOption_eq_ok.2 rfl),
    timely_bind_ok ht]
  refine timely_bind_iff timely_intervalAfter fun waited _ => ?_
  rw [timely_bind_ok (ofQuery_eq_ok.2 hpower),
    timely_bind_ok (ofChecked_eq_ok.2 (heligible waited)), timely_bind, timely_require]
  -- what comes after the hit is passed is refused for other reasons only
  refine ⟨fun h => of_decide_eq_true (h.1 trivial),
    fun hwait => ⟨fun _ => decide_eq_true hwait, fun _ _ => ?_⟩⟩
  refine timely_bind.2 ⟨timely_postStates r m.key t, fun _ _ => ?_⟩
  exact timely_bind.2 ⟨timely_childHeight parent, fun _ _ => timely_pure _⟩

variable (htip : r.tip m.chain = .ok (some parent)) (ht : validateTransaction t m.chain = .ok ())
  (hpower : r.effectivePower m.chain m.key = .ok power) (hwindow : power.toInt ≤ 288)
  (hpositive : 1 ≤ parent.baseTarget.toNat)
include htip ht hpower hwindow hpositive

theorem timely_buildAt_iff_le {earliest : Int64} (h : m.eligibleFrom r parent = .ok earliest)
    (hlow : -2 ^ 63 ≤ timestamp.toInt - parent.timestamp.toInt)
    (hhigh : timestamp.toInt - parent.timestamp.toInt < 2 ^ 63) :
    Timely (m.buildAt r t timestamp) ↔ earliest ≤ timestamp := by
  have hwait : 60 ≤ (m.wait parent power).toInt := Consensus.waitingTime_ge hpositive _ power
  rw [eligibleFrom_eq hpower, ofOption_eq_ok] at h
  have hearliest := Checked.toInt_add? h
  rw [timely_buildAt htip ht hpower hwindow hpositive, Int64.le_iff_toInt_le]
  constructor
  · rintro ⟨waited, hwaited, hlong⟩
    have hdifference := (intervalAfter_eq_ok.1 hwaited).1
    have hlong := Int64.le_iff_toInt_le.1 hlong
    omega
  · intro hlate
    have hword := Checked.ofInt?_eq_some_iff.1 (Checked.ofInt?_eq_some hlow hhigh)
    refine ⟨_, intervalAfter_eq_ok.2 ⟨hword, ?_⟩, ?_⟩
    · rw [Int64.lt_iff_toInt_lt]
      omega
    · rw [Int64.le_iff_toInt_le, hword]
      omega

theorem not_timely_buildAt {e : ValidationError} (h : m.eligibleFrom r parent = .error e)
    (timestamp : Int64) : ¬ Timely (m.buildAt r t timestamp) := by
  have hwait : 60 ≤ (m.wait parent power).toInt := Consensus.waitingTime_ge hpositive _ power
  rw [eligibleFrom_eq hpower, ofOption_eq_error] at h
  rw [timely_buildAt htip ht hpower hwindow hpositive]
  rintro ⟨waited, hwaited, hlong⟩
  have hdifference := (intervalAfter_eq_ok.1 hwaited).1
  have hlong := Int64.le_iff_toInt_le.1 hlong
  have hlow := parent.timestamp.le_toInt
  have hword := timestamp.toInt_lt
  have hsome := Checked.ofInt?_eq_some
    (show -2 ^ 63 ≤ parent.timestamp.toInt + (m.wait parent power).toInt by omega) (by omega)
  rw [Checked.add?, hsome] at h
  cases h.1

end Miner

/-- After any history, a miner is told from which moment on what it builds on
the tip, of whatever valid transaction, is not refused for its time; or that
there is none, and then it is always refused. -/
theorem NodeCall.run_eligibleFrom {calls : List NodeCall}
    (h : Admissible (blocksFrom .empty calls)) {m : Miner} {tip : Block}
    (htip : (run calls).tip m.chain = .ok (some tip))
    (ht : validateTransaction t m.chain = .ok ()) :
    (∀ earliest, m.eligibleFrom (run calls) tip = .ok earliest → ∀ timestamp : Int64,
      -2 ^ 63 ≤ timestamp.toInt - tip.timestamp.toInt →
      timestamp.toInt - tip.timestamp.toInt < 2 ^ 63 →
      (Timely (m.buildAt (run calls) t timestamp) ↔ earliest ≤ timestamp)) ∧
    (∀ got bound, m.eligibleFrom (run calls) tip = .error (.badTimestamp got bound) →
      ∀ timestamp, ∃ e, m.buildAt (run calls) t timestamp = .error e ∧ e.Untimely) ∧
    ((∃ earliest, m.eligibleFrom (run calls) tip = .ok earliest) ∨
      m.eligibleFrom (run calls) tip =
        .error (.badTimestamp Int64.maxValue tip.timestamp)) := by
  obtain ⟨K, A, hA, hr, hpaced⟩ := paced_of_admissible h
  have hbounds := (hpaced m.chain).bounds
  have hheights : ∀ b ∈ A.main m.chain, 0 ≤ b.height.toInt := fun b hb => (hbounds b hb).1
  have hpower := hr.effectivePower_recent hA hheights m.key
  have hcount := hA.recentNaming_le hheights m.key
  have hwindow :
      (Int64.ofNat (recentNaming (A.main m.chain) m.key).length).toInt ≤ 288 := by
    rw [Int64.toInt_ofNat_of_lt (by omega)]
    omega
  have hpositive : 1 ≤ tip.baseTarget.toNat := by
    have hlast := htip
    rw [hr.tip_eq hA, Except.ok.injEq] at hlast
    have hlow := (hbounds tip (List.mem_of_getLast? hlast)).2
    omega
  refine ⟨fun earliest hearliest timestamp => ?_, fun got bound herror timestamp => ?_, ?_⟩
  · exact Miner.timely_buildAt_iff_le htip ht hpower hwindow hpositive hearliest
  · have huntimely := Miner.not_timely_buildAt htip ht hpower hwindow hpositive herror timestamp
    simpa [Timely] using huntimely
  · rw [Miner.eligibleFrom_eq hpower]
    cases Checked.add? tip.timestamp _ with
    | some earliest => exact .inl ⟨earliest, rfl⟩
    | none => exact .inr rfl

end

section

attribute [local instance] checksum

/-- The founder opens a chain at zero, and its hit takes the longest wait. -/
theorem NodeCall.run_eligibleFrom_opening :
    Admissible (blocksFrom .empty [.accept opening]) ∧
    (run [.accept opening]).tip founder.chain = .ok (some opening) ∧
    validateTransaction (founder.note 540 []) founder.chain = .ok () ∧
    founder.eligibleFrom (run [.accept opening]) opening = .ok 540 ∧
    ∀ timestamp : Int64, -2 ^ 63 ≤ timestamp.toInt - opening.timestamp.toInt →
      timestamp.toInt - opening.timestamp.toInt < 2 ^ 63 →
      (Timely (founder.buildAt (run [.accept opening]) (founder.note 540 []) timestamp) ↔
        540 ≤ timestamp) := by
  have hblocks : blocksFrom .empty [.accept opening] = [opening] := rfl
  have hadmissible : Admissible (blocksFrom .empty [.accept opening]) := by
    rw [hblocks]
    decide +kernel
  have hgenesis : validateGenesis opening = .ok () := by decide +kernel
  have hknown : hadmissible.registry.known opening.stored :=
    ⟨opening, hblocks ▸ List.mem_singleton_self opening, rfl⟩
  have hempty := Book.sound_empty hadmissible.registry
  have hkeeps : (run [.accept opening]).Keeps (Book.empty.pushTip opening.stored) :=
    ((ends_accept_opening hempty Repository.keeps_empty rfl hgenesis hknown).mono
      fun _ _ hs => hs.2).snd
  have hsound := Book.sound_pushTip hempty hknown (by decide +kernel)
  have hmain : (Book.empty.pushTip opening.stored).main founder.chain = [opening] := by
    decide +kernel
  have htip : (run [.accept opening]).tip founder.chain = .ok (some opening) := by
    rw [hkeeps.tip_eq hsound, hmain]
    rfl
  have hpower : (run [.accept opening]).effectivePower founder.chain founder.key = .ok 1 := by
    rw [hkeeps.effectivePower_eq hsound, hmain]
    decide +kernel
  have heligible : founder.eligibleFrom (run [.accept opening]) opening = .ok 540 := by
    rw [Miner.eligibleFrom_eq hpower]
    decide +kernel
  have hvalid : validateTransaction (founder.note 540 []) founder.chain = .ok () := by
    decide +kernel
  exact ⟨hadmissible, htip, hvalid, heligible,
    (run_eligibleFrom hadmissible htip hvalid).1 540 heligible⟩

end

end ChainState
