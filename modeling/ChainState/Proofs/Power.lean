import ChainState.Proofs.BestChain
import ChainState.Proofs.Eligibility

/-!
# What the walk for an account's power finds

The power of an account is counted along its links, from its latest block
downwards, and nothing in a repository says how many steps that takes. After
any history the walk ends: its steps lead down the best chain, so it counts
the blocks of the window that name the account, each once. No window holds
more than 288 blocks, and the product that a hit is compared with stays within
128 bits.
-/

set_option autoImplicit false

namespace ChainState

theorem Checked.toInt_clampedSub {a b : Int64} (hlo : Int64.minValue.toInt ≤ a.toInt - b.toInt)
    (hhi : a.toInt - b.toInt ≤ Int64.maxValue.toInt) :
    (clampedSub a b).toInt = a.toInt - b.toInt := by
  rw [clampedSub, min_eq_right hhi, max_eq_right hlo]
  exact Int64.toInt_ofInt_of_le hlo (Int.lt_add_one_of_le hhi)

namespace Consensus

theorem eligible_ok {power : Int64} (hpower : power.toInt ≤ 288) (hit baseTarget : UInt64)
    (interval : Int64) : ∃ answer, eligible hit baseTarget power interval = .ok answer :=
  ⟨_, eligible_eq (spans_of_le hpower baseTarget) hit interval⟩

end Consensus

section

variable [Crypto]

/-- The blocks naming the account that lie less than 288 heights below the
last one. -/
def recentNaming (main : List Block) (pk : PublicKey) : List Block :=
  match main.getLast? with
  | none => []
  | some tip => main.filter fun b => pk ∈ b.affected ∧ tip.height.toInt - 288 < b.height.toInt

theorem namingAbove_window {main : List Block} {tip : Block} (htip : main.getLast? = some tip)
    (hheight : 0 ≤ tip.height.toInt) (pk : PublicKey) :
    namingAbove pk (Checked.clampedSub tip.height Consensus.powerWindow) main =
      recentNaming main pk := by
  have hw : Consensus.powerWindow.toInt = 288 := by decide
  have hmin : Int64.minValue.toInt = -9223372036854775808 := by decide
  have hmax : Int64.maxValue.toInt = 9223372036854775807 := by decide
  have hlt := tip.height.toInt_lt
  have hfloor : (Checked.clampedSub tip.height Consensus.powerWindow).toInt =
      tip.height.toInt - 288 := by
    rw [Checked.toInt_clampedSub (by omega) (by omega), hw]
  rw [namingAbove, recentNaming, htip, List.filter_filter]
  refine List.filter_congr fun b _ => ?_
  rw [Bool.eq_iff_iff]
  simp [Int64.lt_iff_toInt_lt, hfloor, and_comm]

/-- The walk down the history of `pk` ends, and has counted so many blocks
above the floor. There is no bound on its steps. -/
inductive HistoryWalk (r : Repository) (pk : PublicKey) (floor : Int64) : Hash → Nat → Prop
  | atEnd {cursor : Hash} (hzero : cursor.isZero = true) : HistoryWalk r pk floor cursor 0
  | unstored {cursor : Hash} (hzero : cursor.isZero = false)
      (hblock : r.findBlock cursor = .ok none) : HistoryWalk r pk floor cursor 0
  | beneath {cursor : Hash} {b : Block} (hzero : cursor.isZero = false)
      (hblock : r.findBlock cursor = .ok (some b)) (hfloor : b.height ≤ floor) :
      HistoryWalk r pk floor cursor 0
  | unlinked {cursor : Hash} {b : Block} (hzero : cursor.isZero = false)
      (hblock : r.findBlock cursor = .ok (some b)) (hfloor : floor < b.height)
      (hlinks : r.findLinks cursor = .ok none) : HistoryWalk r pk floor cursor 1
  | down {cursor : Hash} {b : Block} {links : Links} {n : Nat} (hzero : cursor.isZero = false)
      (hblock : r.findBlock cursor = .ok (some b)) (hfloor : floor < b.height)
      (hlinks : r.findLinks cursor = .ok (some links))
      (rest : HistoryWalk r pk floor (links.previousOf pk) n) :
      HistoryWalk r pk floor cursor (n + 1)

/-- The power of an account is counted without an error. -/
inductive PowerWalk (r : Repository) (chain : Bytes) (pk : PublicKey) : Nat → Prop
  | unnamed (hspan : r.findSpan chain pk = .ok none) : PowerWalk r chain pk 0
  | tipless {span : Span} (hspan : r.findSpan chain pk = .ok (some span))
      (htip : r.tip chain = .ok none) : PowerWalk r chain pk 0
  | walked {span : Span} {tip : Block} {n : Nat}
      (hspan : r.findSpan chain pk = .ok (some span)) (htip : r.tip chain = .ok (some tip))
      (walk : HistoryWalk r pk (Checked.clampedSub tip.height Consensus.powerWindow)
        span.latest n) : PowerWalk r chain pk n

variable {r : Repository} {pk : PublicKey} {floor : Int64}

theorem HistoryWalk.of_countHistory {steps n : Nat} {cursor : Hash}
    (h : r.countHistory pk floor steps cursor = .ok n) (hn : n < steps) :
    HistoryWalk r pk floor cursor n := by
  -- a count below the bound has not used up its steps, so it ended for one of the walk's reasons
  induction steps generalizing cursor n with
  | zero => exact absurd hn n.not_lt_zero
  | succ steps ih =>
    simp only [Repository.countHistory, bind, Except.bind] at h
    cases hzero : cursor.isZero with
    | true =>
      rw [hzero, if_pos rfl] at h
      cases h
      exact .atEnd hzero
    | false =>
      rw [hzero, if_neg Bool.false_ne_true] at h
      cases hblock : r.findBlock cursor with
      | error e => simp [hblock] at h
      | ok o =>
        cases o with
        | none =>
          simp only [hblock] at h
          cases h
          exact .unstored hzero hblock
        | some b =>
          simp only [hblock] at h
          by_cases hfloor : b.height ≤ floor
          · rw [if_pos hfloor] at h
            cases h
            exact .beneath hzero hblock hfloor
          rw [if_neg hfloor] at h
          have hfloor := Int64.not_le.1 hfloor
          cases hlinks : r.findLinks cursor with
          | error e => simp [hlinks] at h
          | ok o =>
            cases o with
            | none =>
              simp only [hlinks] at h
              cases h
              exact .unlinked hzero hblock hfloor hlinks
            | some links =>
              simp only [hlinks] at h
              cases hrest : r.countHistory pk floor steps (links.previousOf pk) with
              | error e => simp [hrest] at h
              | ok m =>
                simp only [hrest] at h
                cases h
                exact .down hzero hblock hfloor hlinks (ih hrest (by omega))

namespace Repository.Keeps

variable {A : Book} {K : Registry} {c : Bytes}

/-- The walk ends, whatever number of steps it may take. -/
theorem powerWalk (hr : r.Keeps A) (hA : A.Sound K)
    (hheights : ∀ b ∈ A.main c, 0 ≤ b.height.toInt) (pk : PublicKey) :
    PowerWalk r c pk (recentNaming (A.main c) pk).length := by
  rcases hr.findSpan_cases c pk with ⟨hn, hspan⟩ | ⟨lo, b, oldest, hn, hm, -, hspan⟩
  · have hnone : recentNaming (A.main c) pk = [] := by
      rw [Book.naming, List.filter_eq_nil_iff] at hn
      rw [recentNaming]
      split
      · rfl
      · refine List.filter_eq_nil_iff.2 fun b hb h => hn b hb ?_
        simpa using (of_decide_eq_true h).1
    rw [hnone]
    exact .unnamed hspan
  · obtain ⟨tip, htip⟩ := Option.ne_none_iff_exists'.1 (fun h =>
      List.ne_nil_of_mem hm (List.getLast?_eq_none_iff.1 h))
    have hcount := hr.countHistory_eq hA
      (Checked.clampedSub tip.height Consensus.powerWindow) (List.append_nil (A.naming c pk)).symm
      (Nat.le_add_right _ 1)
    have hwalk := HistoryWalk.of_countHistory hcount (Nat.lt_add_one _)
    rw [← namingAbove_window htip (hheights tip (List.mem_of_getLast? htip))]
    simp only [hn, List.getLast?_concat, Option.map_some, Option.getD_some] at hwalk
    rw [← hn] at hwalk
    exact .walked hspan ((hr.tip_eq hA c).trans (congrArg _ htip)) hwalk

theorem effectivePower_recent (hr : r.Keeps A) (hA : A.Sound K)
    (hheights : ∀ b ∈ A.main c, 0 ≤ b.height.toInt) (pk : PublicKey) :
    r.effectivePower c pk = .ok (Int64.ofNat (recentNaming (A.main c) pk).length) := by
  rw [hr.effectivePower_eq hA, powerOn]
  cases htip : (A.main c).getLast? with
  | none => simp [recentNaming, htip]
  | some tip =>
    rw [← namingAbove_window htip (hheights tip (List.mem_of_getLast? htip))]

end Repository.Keeps

theorem Book.Sound.recentNaming_le {A : Book} {K : Registry} (hA : A.Sound K) {c : Bytes}
    (hheights : ∀ b ∈ A.main c, 0 ≤ b.height.toInt) (pk : PublicKey) :
    (recentNaming (A.main c) pk).length ≤ 288 := by
  cases htip : (A.main c).getLast? with
  | none => simp [recentNaming, htip]
  | some tip =>
    rw [← namingAbove_window htip (hheights tip (List.mem_of_getLast? htip))]
    exact hA.namingAbove_le htip pk

namespace ChainCall

open Transition

def connected (r : Repository) (call : ChainCall) : List Block :=
  match (call.transition.run.run r).1 with
  | .ok _ => call.connects?.toList
  | .error _ => []

/-- The blocks that are connected, one call after the other. -/
def connectedFrom : Repository → List ChainCall → List Block
  | _, [] => []
  | r, call::calls => call.connected r ++ connectedFrom (call.perform r) calls

theorem connectedFrom_subset (r : Repository) (calls : List ChainCall) :
    connectedFrom r calls ⊆ calls.flatMap (·.connects?.toList) := by
  induction calls generalizing r with
  | nil => exact List.Subset.refl _
  | cons call calls ih =>
    have hcall : call.connected r ⊆ call.connects?.toList := by
      rw [connected]
      split
      · exact List.Subset.refl _
      · exact List.nil_subset _
    rw [connectedFrom, List.flatMap_cons]
    exact List.append_subset.2 ⟨fun _ hb => List.mem_append_left _ (hcall hb),
      fun _ hb => List.mem_append_right _ (ih _ hb)⟩

variable {A : Book} {K : Registry}

/-- A call that is to connect a block is refused only where the book has no
place for it. -/
theorem after_of_refused (hA : A.Sound K) (hr : r.Keeps A) {call : ChainCall}
    (hcall : ∀ b, call.block? = some b → K.known b.stored) {b : Block}
    (hb : call.connects? = some b) {e : RepositoryError}
    (he : (call.transition.run.run r).1 = .error e) : A.after call = A := by
  have refused {t : Transition Unit} (hends : Ends t r fun _ _ => True)
      (ht : (t.run.run r).1 = .error e) : False := by
    obtain ⟨_, _, hrun, -⟩ := hends
    rw [hrun] at ht
    cases ht
  cases call with
  | connectTip b =>
    exact if_neg fun h => refused ((ends_connectTip hA hr (hcall b rfl) h).mono (by simp)) he
  | connectTail b =>
    exact if_neg fun h => refused ((ends_connectTail hA hr (hcall b rfl) h).mono (by simp)) he
  | rollBack | expire | saveFork | deleteBlock | pruneOrphans => cases hb

variable {P : Block → Prop}

theorem forall_main_after (hA : A.Sound K) (hr : r.Keeps A) {call : ChainCall}
    (hcall : ∀ b, call.block? = some b → K.known b.stored)
    (hmain : ∀ c, ∀ b ∈ A.main c, P b) (hP : ∀ b ∈ call.connected r, P b.stored) :
    ∀ c, ∀ b ∈ (A.after call).main c, P b := by
  intro c x hx
  cases A.moved_after call with
  | still h => exact hmain c x (h ▸ hx)
  | off hb h => exact hmain c x ((h c x).2 (.inr hx))
  | onto hb h =>
    cases hrun : (call.transition.run.run r).1 with
    | ok y =>
      rcases (h c x).1 hx with ⟨-, rfl⟩ | hx
      · exact hP _ (by simp [connected, hrun, hb])
      · exact hmain c x hx
    | error e =>
      rw [after_of_refused hA hr hcall hb hrun] at hx
      exact hmain c x hx

theorem forall_main_foldl {calls : List ChainCall} (hA : A.Sound K) (hr : r.Keeps A)
    (hcalls : ∀ call ∈ calls, ∀ b, call.block? = some b → K.known b.stored)
    (hmain : ∀ c, ∀ b ∈ A.main c, P b) (hP : ∀ b ∈ connectedFrom r calls, P b.stored) :
    ∀ c, ∀ b ∈ (calls.foldl Book.after A).main c, P b := by
  induction calls generalizing A r with
  | nil => exact hmain
  | cons call calls ih =>
    have hcall := hcalls call List.mem_cons_self
    obtain ⟨hA', hr'⟩ := perform_keeps hA hr call hcall
    apply ih hA' hr' fun c hc => hcalls c (List.mem_cons_of_mem _ hc)
    · exact forall_main_after hA hr hcall hmain fun b hb => hP b (List.mem_append_left _ hb)
    · exact fun b hb => hP b (List.mem_append_right _ hb)

theorem forall_main_book {calls : List ChainCall} (h : Admissible (calls.filterMap block?))
    (hP : ∀ b ∈ connectedFrom .empty calls, P b.stored) :
    ∀ c, ∀ b ∈ (book calls).main c, P b :=
  forall_main_foldl (Book.sound_empty h.registry) Repository.keeps_empty
    (fun call hcall b hb => ⟨b, List.mem_filterMap.2 ⟨call, hcall, hb⟩, rfl⟩)
    (fun _ _ hb => absurd hb List.not_mem_nil) hP

end ChainCall

/-- After any history that connects blocks of heights from zero upwards, the
walk for the power of an account ends without an error. It counts the blocks
of the best chain that name the account and lie less than 288 heights below
the tip. So the power is at most 288, and whether a miner with it may seal a
block is decided without an overflow. -/
theorem ChainCall.run_power {calls : List ChainCall} (h : Admissible (calls.filterMap block?))
    (hheights : ∀ b ∈ connectedFrom .empty calls, 0 ≤ b.height.toInt)
    (chain : Bytes) (pk : PublicKey) :
    ∃ main, Spine (run calls) chain main ∧ ∃ n, n = (recentNaming main pk).length ∧ n ≤ 288 ∧
      PowerWalk (run calls) chain pk n ∧
      ∃ power : Int64, power.toInt = n ∧ (run calls).effectivePower chain pk = .ok power ∧
        ∀ hit baseTarget interval, ∃ answer,
          Consensus.eligible hit baseTarget power interval = .ok answer := by
  obtain ⟨hA, hr⟩ := keeps_book h
  have hmain : ∀ b ∈ (book calls).main chain, 0 ≤ b.height.toInt := by
    refine forall_main_book h (P := fun b => 0 ≤ b.height.toInt) (fun b hb => ?_) chain
    rw [Block.height_stored]
    exact hheights b hb
  have hle := hA.recentNaming_le hmain pk
  have hpower : (Int64.ofNat (recentNaming ((book calls).main chain) pk).length).toInt =
      ((recentNaming ((book calls).main chain) pk).length : Int) :=
    Int64.toInt_ofNat_of_lt (by omega)
  refine ⟨_, hr.spine hA chain, _, rfl, hle, hr.powerWalk hA hmain pk, _, hpower,
    hr.effectivePower_recent hA hmain pk, ?_⟩
  exact Consensus.eligible_ok (by omega)

end

section

attribute [local instance] checksum

/-- The miner of both blocks has the power of two. -/
theorem ChainCall.run_power_pair : Admissible (pairCalls.filterMap block?) ∧
    (∀ b ∈ connectedFrom .empty pairCalls, 0 ≤ b.height.toInt) ∧
    Spine (run pairCalls) [0x61] [firstBlock.stored, secondBlock.stored] ∧
    PowerWalk (run pairCalls) [0x61] firstBlock.miner 2 ∧
    (run pairCalls).effectivePower [0x61] firstBlock.miner = .ok 2 ∧
    ∀ hit baseTarget interval, ∃ answer,
      Consensus.eligible hit baseTarget 2 interval = .ok answer := by
  have hheights : ∀ b ∈ connectedFrom .empty pairCalls, 0 ≤ b.height.toInt := by
    have hconnects : ∀ b ∈ pairCalls.flatMap (·.connects?.toList), 0 ≤ b.height.toInt := by decide
    exact fun b hb => hconnects b (connectedFrom_subset _ _ hb)
  obtain ⟨main, hs, n, hn, -, hwalk, power, hpower, heffective, heligible⟩ :=
    run_power admissible_pairCalls hheights [0x61] firstBlock.miner
  obtain rfl := spine_pairCalls.unique hs
  obtain rfl : n = 2 := hn.trans (by decide +kernel)
  obtain rfl : power = 2 := Int64.toInt_inj.1 hpower
  exact ⟨admissible_pairCalls, hheights, hs, hwalk, heffective, heligible⟩

end

end ChainState
