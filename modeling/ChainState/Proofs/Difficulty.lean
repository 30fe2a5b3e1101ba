import ChainState.Proofs.BestChain
import ChainState.Proofs.NodeHistory
import ChainState.Proofs.Retarget

/-!
# Difficulties add up

Every block adds its work to the difficulty of its chain, and the lowest base
target bounds the work of a block. So up to 2^32 blocks the difficulty is the
exact sum of the work: it rises with every block and does not reach the highest
word, where chains could no longer be told apart. Best chains keep this pace
whatever a node has done.
-/

set_option autoImplicit false

namespace ChainState

namespace Consensus

theorem toNat_nextDifficulty (previous baseTarget : UInt64) :
    (nextDifficulty previous baseTarget).toNat =
      min (previous.toNat + UInt64.size / max baseTarget.toNat 1) highestWord := by
  have hhigh : highestWord = 2 ^ 64 - 1 := rfl
  rw [nextDifficulty, UInt64.toNat_ofNat_of_lt' (by rw [hhigh, UInt64.size]; omega)]

theorem lt_nextDifficulty {previous : UInt64} (h : previous.toNat ≠ highestWord)
    (baseTarget : UInt64) : previous < nextDifficulty previous baseTarget := by
  have hhigh : highestWord = 2 ^ 64 - 1 := rfl
  have hsize : UInt64.size = 2 ^ 64 := rfl
  have hprevious := previous.toNat_lt
  have hstep : 0 < UInt64.size / max baseTarget.toNat 1 := by
    apply Nat.div_pos
    · have := baseTarget.toNat_lt
      omega
    · omega
  rw [UInt64.lt_iff_toNat_lt, toNat_nextDifficulty]
  omega

theorem le_nextDifficulty (previous baseTarget : UInt64) :
    previous ≤ nextDifficulty previous baseTarget := by
  have hhigh : highestWord = 2 ^ 64 - 1 := rfl
  have hprevious := previous.toNat_lt
  rw [UInt64.le_iff_toNat_le, toNat_nextDifficulty]
  exact le_min (Nat.le_add_right _ _) (by omega)

end Consensus

open Consensus

structure Pace where
  baseTarget : UInt64
  difficulty : UInt64
  deriving DecidableEq

namespace Pace

def genesis : Pace := ⟨genesisBaseTarget, 0⟩

def after (p : Pace) (interval : Int64) : Pace :=
  let baseTarget := nextBaseTarget p.baseTarget interval
  ⟨baseTarget, nextDifficulty p.difficulty baseTarget⟩

def trail : Pace → List Int64 → List Pace
  | _, [] => []
  | p, interval::rest => p.after interval :: trail (p.after interval) rest

def work (p : Pace) : Nat := 2 ^ 64 / p.baseTarget.toNat

def works (ps : List Pace) : Nat := (ps.map work).sum

variable {p q : Pace} {interval : Int64} {intervals : List Int64}

theorem length_trail (p : Pace) (intervals : List Int64) :
    (p.trail intervals).length = intervals.length := by
  induction intervals generalizing p with
  | nil => rfl
  | cons interval rest ih => rw [trail, List.length_cons, ih, List.length_cons]

theorem works_cons (p : Pace) (ps : List Pace) : works (p::ps) = p.work + works ps := by
  rw [works, List.map_cons, List.sum_cons, works]

theorem lowest_le_after (p : Pace) (interval : Int64) :
    2 ^ 32 ≤ (p.after interval).baseTarget.toNat :=
  lowest_le_nextBaseTarget _ _

theorem lowest_le_of_mem_trail (h : q ∈ p.trail intervals) : 2 ^ 32 ≤ q.baseTarget.toNat := by
  induction intervals generalizing p with
  | nil => cases h
  | cons interval rest ih =>
    rcases List.mem_cons.1 h with rfl | h
    · exact lowest_le_after p interval
    · exact ih h

theorem work_pos (h : 2 ^ 32 ≤ p.baseTarget.toNat) : 0 < p.work := by
  have hword := p.baseTarget.toNat_lt
  exact Nat.div_pos hword.le (by omega)

theorem work_le (h : 2 ^ 32 ≤ p.baseTarget.toNat) : p.work ≤ 2 ^ 32 := by
  apply Nat.div_le_of_le_mul
  omega

theorem difficulty_after (h : p.difficulty.toNat + 2 ^ 32 < 2 ^ 64 - 1) (interval : Int64) :
    (p.after interval).difficulty.toNat = p.difficulty.toNat + (p.after interval).work := by
  have hlow := lowest_le_after p interval
  have hwork := work_le hlow
  have hhigh : highestWord = 2 ^ 64 - 1 := rfl
  have hstep : UInt64.size / max (p.after interval).baseTarget.toNat 1 =
      (p.after interval).work := by
    rw [max_eq_left (by omega)]
    rfl
  show (nextDifficulty p.difficulty (p.after interval).baseTarget).toNat = _
  rw [toNat_nextDifficulty, hstep]
  omega

def Spare (p : Pace) (blocks : Nat) : Prop := p.difficulty.toNat + blocks * 2 ^ 32 < 2 ^ 64 - 1

theorem Spare.after {blocks : Nat} (h : p.Spare (blocks + 1)) (interval : Int64) :
    (p.after interval).difficulty.toNat = p.difficulty.toNat + (p.after interval).work ∧
      (p.after interval).Spare blocks := by
  have hwork := work_le (lowest_le_after p interval)
  rw [Spare] at h
  have hroom : p.difficulty.toNat + 2 ^ 32 < 2 ^ 64 - 1 := by omega
  have hdifficulty := difficulty_after hroom interval
  refine ⟨hdifficulty, ?_⟩
  rw [Spare, hdifficulty]
  omega

/-- Where there is room for all blocks, the difficulty after any of them is the
exact sum of their work. -/
theorem difficulty_trail (h : p.Spare intervals.length) {lo hi : List Pace}
    (hsplit : p.trail intervals = lo ++ q::hi) :
    q.difficulty.toNat = p.difficulty.toNat + works (lo ++ [q]) := by
  -- every block takes at most its share of the room, and leaves it to the rest
  induction intervals generalizing p lo with
  | nil => simp [trail] at hsplit
  | cons interval rest ih =>
    obtain ⟨hdifficulty, hspare⟩ := Spare.after h interval
    rw [trail] at hsplit
    cases lo with
    | nil =>
      obtain ⟨rfl, -⟩ := List.cons.inj hsplit
      simp [works, hdifficulty]
    | cons x lo =>
      obtain ⟨rfl, hrest⟩ := List.cons.inj hsplit
      rw [ih hspare hrest, hdifficulty, List.cons_append, works_cons]
      omega

theorem difficulty_lt_of_mem_trail (h : p.Spare intervals.length) (hq : q ∈ p.trail intervals) :
    q.difficulty.toNat < 2 ^ 64 - 1 := by
  induction intervals generalizing p with
  | nil => cases hq
  | cons interval rest ih =>
    obtain ⟨-, hspare⟩ := Spare.after h interval
    rcases List.mem_cons.1 hq with rfl | hq
    · exact (Nat.le_add_right _ _).trans_lt hspare
    · exact ih hspare hq

theorem rising_trail (h : p.Spare intervals.length) :
    (p :: p.trail intervals).Pairwise fun a b => a.difficulty < b.difficulty := by
  induction intervals generalizing p with
  | nil => exact List.pairwise_singleton _ _
  | cons interval rest ih =>
    obtain ⟨hdifficulty, hspare⟩ := Spare.after h interval
    have hrising := ih hspare
    have hnext : p.difficulty < (p.after interval).difficulty := by
      have hwork := work_pos (lowest_le_after p interval)
      rw [UInt64.lt_iff_toNat_lt]
      omega
    rw [trail, List.pairwise_cons]
    refine ⟨?_, hrising⟩
    intro q hq
    rcases List.mem_cons.1 hq with rfl | hq
    · exact hnext
    · exact UInt64.lt_trans hnext (List.rel_of_pairwise_cons hrising hq)

theorem spare_genesis {blocks : Nat} (h : blocks ≤ 2 ^ 32 - 1) : genesis.Spare blocks := by
  have hzero : genesis.difficulty.toNat = 0 := rfl
  rw [Spare, hzero]
  omega

/-- Along up to 2^32 - 1 intervals of whatever length, no base target falls
below the lowest, and the difficulty is the exact sum of the work, rises with
every block and does not reach the highest word. -/
theorem difficulty_exact {intervals : List Int64} (h : intervals.length ≤ 2 ^ 32 - 1) :
    (genesis.trail intervals).length = intervals.length ∧
    (∀ p ∈ genesis :: genesis.trail intervals, 2 ^ 32 ≤ p.baseTarget.toNat) ∧
    (∀ lo p hi, genesis.trail intervals = lo ++ p::hi →
      p.difficulty.toNat = ((lo ++ [p]).map fun q => 2 ^ 64 / q.baseTarget.toNat).sum) ∧
    (genesis :: genesis.trail intervals).Pairwise (fun p q => p.difficulty < q.difficulty) ∧
    ∀ p ∈ genesis.trail intervals, p.difficulty.toNat < 2 ^ 64 - 1 := by
  have hspare := spare_genesis h
  refine ⟨length_trail genesis intervals, ?_, ?_, rising_trail hspare,
    fun p => difficulty_lt_of_mem_trail hspare⟩
  · intro p hp
    rcases List.mem_cons.1 hp with rfl | hp
    · decide
    · exact lowest_le_of_mem_trail hp
  · intro lo p hi hsplit
    rw [difficulty_trail hspare hsplit]
    exact Nat.zero_add _

/-- Quick, slow and backward intervals. -/
theorem difficulty_exact_uneven :
    [1, 10000, 300, -7, 540].length ≤ 2 ^ 32 - 1 ∧
    (genesis.trail [1, 10000, 300, -7, 540]).length = [1, 10000, 300, -7, 540].length ∧
    (∀ p ∈ genesis :: genesis.trail [1, 10000, 300, -7, 540], 2 ^ 32 ≤ p.baseTarget.toNat) ∧
    (∀ lo p hi, genesis.trail [1, 10000, 300, -7, 540] = lo ++ p::hi →
      p.difficulty.toNat = ((lo ++ [p]).map fun q => 2 ^ 64 / q.baseTarget.toNat).sum) ∧
    (genesis :: genesis.trail [1, 10000, 300, -7, 540]).Pairwise
      (fun p q => p.difficulty < q.difficulty) ∧
    ∀ p ∈ genesis.trail [1, 10000, 300, -7, 540], p.difficulty.toNat < 2 ^ 64 - 1 := by
  have hlength : [1, 10000, 300, -7, 540].length ≤ 2 ^ 32 - 1 := by decide
  exact ⟨hlength, difficulty_exact hlength⟩

example : genesis.trail [300] = [⟨genesisBaseTarget, 1938⟩] := by decide

end Pace

section

variable [Crypto]

def Block.pace (b : Block) : Pace := ⟨b.baseTarget, b.cumulativeDifficulty⟩

structure Block.Paces (parent b : Block) : Prop where
  height : Checked.succ? parent.height = some b.height
  pace : ∃ interval, intervalAfter parent.timestamp b.timestamp = .ok interval ∧
    b.pace = parent.pace.after interval

/-- The chain starts as every chain does, and goes on step by step. -/
structure Paced (main : List Block) : Prop where
  opens : ∀ first ∈ main.head?, first.isGenesis = true ∧ first.height = 0 ∧ first.pace = .genesis
  steps : main.IsChain Block.Paces

namespace Paced

variable {main lo hi : List Block} {first parent b : Block}

theorem nil : Paced [] := ⟨by simp, .nil⟩

theorem left (h : Paced (lo ++ hi)) : Paced lo where
  opens first hfirst := h.opens first (List.mem_head?_append_of_mem_head? hfirst)
  steps := h.steps.left_of_append

theorem concat (h : Paced main) (hparent : main.getLast? = some parent) (hb : parent.Paces b) :
    Paced (main ++ [b]) where
  opens first hfirst := by
    have hne : main ≠ [] := List.ne_nil_of_mem (List.mem_of_getLast? hparent)
    rw [List.head?_append_of_ne_nil _ hne] at hfirst
    exact h.opens first hfirst
  steps := by
    refine isChain_concat h.steps fun t ht => ?_
    obtain rfl : parent = t := by simpa [hparent] using ht
    exact hb

theorem exists_trail (h : (first::main).IsChain Block.Paces) :
    ∃ intervals : List Int64, intervals.length = main.length ∧
      main.map Block.pace = first.pace.trail intervals := by
  induction main generalizing first with
  | nil => exact ⟨[], rfl, rfl⟩
  | cons b rest ih =>
    obtain ⟨hb, hrest⟩ := List.isChain_cons_cons.1 h
    obtain ⟨interval, -, hpace⟩ := hb.pace
    obtain ⟨intervals, hlength, htrail⟩ := ih hrest
    refine ⟨interval::intervals, by simp [hlength], ?_⟩
    rw [List.map_cons, htrail, hpace]
    rfl

theorem bounds (h : Paced main) :
    ∀ b ∈ main, 0 ≤ b.height.toInt ∧ 2 ^ 32 ≤ b.baseTarget.toNat := by
  apply h.steps.induction
  · rintro x y ⟨hsucc, interval, -, hpace⟩ ⟨hx, -⟩
    have hrises := Checked.toInt_succ? hsucc
    have hlow := x.pace.lowest_le_after interval
    rw [← hpace] at hlow
    exact ⟨by omega, hlow⟩
  · intro hne
    obtain ⟨-, hheight, hpace⟩ := h.opens _ (List.head_mem_head? hne)
    have hlow : 2 ^ 32 ≤ (main.head hne).pace.baseTarget.toNat := by
      rw [hpace]
      decide
    exact ⟨by rw [hheight]; decide, hlow⟩

theorem unsaturated (h : Paced main) (hlength : main.length ≤ 2 ^ 32) :
    main.Pairwise (fun a b => a.cumulativeDifficulty < b.cumulativeDifficulty) ∧
      ∀ b ∈ main, b.cumulativeDifficulty.toNat < 2 ^ 64 - 1 := by
  cases main with
  | nil => exact ⟨.nil, by simp⟩
  | cons first rest =>
    obtain ⟨-, -, hpace⟩ := h.opens first rfl
    obtain ⟨intervals, hintervals, htrail⟩ := exists_trail h.steps
    rw [List.length_cons] at hlength
    have hspare := Pace.spare_genesis (show intervals.length ≤ 2 ^ 32 - 1 by omega)
    have hpaces : (first::rest).map Block.pace = .genesis :: Pace.genesis.trail intervals := by
      rw [List.map_cons, htrail, hpace]
    constructor
    · have hrising := Pace.rising_trail hspare
      rw [← hpaces, List.pairwise_map] at hrising
      exact hrising
    · intro b hb
      have hmem : b.pace ∈ .genesis :: Pace.genesis.trail intervals :=
        hpaces ▸ List.mem_map_of_mem hb
      rcases List.mem_cons.1 hmem with hfirst | hmem
      · show b.pace.difficulty.toNat < 2 ^ 64 - 1
        rw [hfirst]
        decide
      · exact Pace.difficulty_lt_of_mem_trail hspare hmem

end Paced

variable {K : Registry} {A : Book} {r : Repository} {b parent : Block} {waited : Int64}

open Check

theorem Block.pace_stored (b : Block) : b.stored.pace = b.pace := by
  rw [stored_eq]
  rfl

theorem Block.Paces.stored (h : parent.Paces b) : parent.Paces b.stored := by
  obtain ⟨hheight, hpace⟩ := h
  rw [Block.stored_eq]
  exact ⟨hheight, hpace⟩

theorem HeaderFits.paces (h : HeaderFits b parent waited) : parent.Paces b where
  height := h.height
  pace := by
    refine ⟨waited, h.interval, ?_⟩
    rw [Block.pace, h.cumulativeDifficulty, h.baseTarget]
    rfl

theorem Miner.MaySeal.paces {m : Miner} {t : Transaction} {timestamp height : Int64}
    {states : PostStates} (h : m.MaySeal r t timestamp parent waited height states) :
    parent.Paces (m.sealed t timestamp parent waited height states) :=
  ⟨h.height, waited, h.interval, rfl⟩

theorem Enters.paces (h : Enters r b) (hA : A.Sound K) (hr : r.Keeps A) :
    ∃ parent, (A.main b.chain).getLast? = some parent ∧ parent.Paces b := by
  cases h with
  | validated h =>
    obtain ⟨parent, waited, hfound, htip, hheader, -⟩ := validateBlock_eq_ok.1 h
    exact ⟨parent, (getLast?_of_found hA hr hfound htip).1, hheader.paces⟩
  | built m t now h =>
    obtain ⟨parent, waited, height, states, hseal, rfl⟩ :=
      Miner.buildAt_eq_ok.1 (Miner.buildAt_of_build h)
    have htip := hseal.tip
    rw [hr.tip_eq hA, Except.ok.injEq] at htip
    exact ⟨parent, htip, hseal.paces⟩

theorem Paced.opening (hgenesis : b.isGenesis = true) (hheight : b.height = 0)
    (hpace : b.pace = .genesis) : Paced [b.stored] where
  opens first hfirst := by
    obtain rfl : b.stored = first := by simpa using hfirst
    rw [b.pace_stored, b.height_stored, Block.isGenesis, b.parent_stored]
    exact ⟨hgenesis, hheight, hpace⟩
  steps := .singleton _

theorem law_paced : Law Paced where
  nil := .nil
  left _ _ h := h.left
  begins _ h first hfirst := (h.opens first hfirst).1
  opens b h := by
    have hfits := validateGenesis_eq_ok.1 h
    refine .opening hfits.isGenesis hfits.height ?_
    rw [Block.pace, hfits.baseTarget, hfits.cumulativeDifficulty]
    rfl
  joins hA hr h ha := by
    obtain ⟨parent, hparent, hb⟩ := h.paces hA hr
    exact ha.concat hparent hb.stored

theorem NodeCall.opens_paced (call : NodeCall) : call.Opens Paced := by
  cases call with
  | openChain miner timestamp balance =>
    refine .opening ?_ rfl rfl
    simp [Miner.genesis, Block.sign, Block.isGenesis, FixedBytes.isZero]
  | _ => trivial

theorem NodeCall.paced_of_admissible {calls : List NodeCall}
    (h : Admissible (blocksFrom .empty calls)) : ∃ K, Accounted Paced K (run calls) :=
  accounted_of_law law_paced h fun call _ => call.opens_paced

theorem NodeCall.run_unsaturated {calls : List NodeCall}
    (h : Admissible (blocksFrom .empty calls)) (chain : Bytes) :
    ∃ main, Spine (run calls) chain main ∧ (main.length ≤ 2 ^ 32 →
      main.Pairwise (fun a b => a.cumulativeDifficulty < b.cumulativeDifficulty) ∧
        ∀ b ∈ main, b.cumulativeDifficulty.toNat < 2 ^ 64 - 1) := by
  obtain ⟨K, A, hA, hr, hpaced⟩ := paced_of_admissible h
  exact ⟨A.main chain, hr.spine hA chain, (hpaced chain).unsaturated⟩

end

end ChainState
