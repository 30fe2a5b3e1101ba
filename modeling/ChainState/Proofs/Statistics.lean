import ChainState.Http.Handler
import ChainState.Proofs.Difficulty
import ChainState.Proofs.NodeRows
import ChainState.Proofs.Power
import ChainState.Proofs.Resubmission

/-!
# Statistics of a chain

The blocks that the pace of a chain is taken from are the last ones up to its
tip. Each came later than the one before, by an interval that is a number of
its own. So the intervals add up to the time between the first and the last of
these blocks. But that may be more than a number can hold, and then the request
does not come to an answer.
-/

set_option autoImplicit false

namespace ChainState

namespace Http

theorem foldlM_add_eq {numbers : List Int64} (h : ∀ n ∈ numbers, 0 ≤ n.toInt) {start : Int64}
    (hstart : 0 ≤ start.toInt) : numbers.foldlM Checked.add start =
      if start.toInt + (numbers.map Int64.toInt).sum < 2 ^ 63 then
        .ok (Int64.ofInt (start.toInt + (numbers.map Int64.toInt).sum))
      else .error .addition := by
  induction numbers generalizing start with
  | nil =>
    have hfits := start.toInt_lt
    rw [List.map_nil, List.sum_nil, Int.add_zero, if_pos (by simpa using hfits), Int64.ofInt_toInt]
    rfl
  | cons n rest ih =>
    obtain ⟨hn, hrest⟩ := List.forall_mem_cons.1 h
    have hsum : 0 ≤ (rest.map Int64.toInt).sum :=
      List.sum_nonneg (by simpa using hrest)
    rw [List.foldlM_cons, List.map_cons, List.sum_cons, ← Int.add_assoc]
    by_cases hfits : start.toInt + n.toInt < 2 ^ 63
    · obtain ⟨next, hnext⟩ := Checked.add_eq_ok (by omega) hfits
      have hvalue := Checked.toInt_add hnext
      rw [hnext, ← hvalue]
      exact ih hrest (by omega)
    · rw [Checked.add_eq_error (by omega), if_neg (by omega)]
      rfl

section

variable {numbers : List Int64} (h : ∀ n ∈ numbers, 0 ≤ n.toInt)
include h

theorem total_eq_ok (hfits : (numbers.map Int64.toInt).sum < 2 ^ 63) :
    ∃ sum, total numbers = .ok sum ∧ sum.toInt = (numbers.map Int64.toInt).sum := by
  have hzero : (0 : Int64).toInt = 0 := rfl
  have hnonneg : 0 ≤ (numbers.map Int64.toInt).sum := List.sum_nonneg (by simpa using h)
  have htotal := foldlM_add_eq h (by rw [hzero])
  rw [hzero, Int.zero_add, if_pos hfits] at htotal
  exact ⟨_, htotal, Int64.toInt_ofInt_of_le (by omega) hfits⟩

theorem total_eq_error (hbeyond : 2 ^ 63 ≤ (numbers.map Int64.toInt).sum) :
    total numbers = .error .addition := by
  have hzero : (0 : Int64).toInt = 0 := rfl
  have htotal := foldlM_add_eq h (by rw [hzero])
  rwa [hzero, Int.zero_add, if_neg (by omega)] at htotal

end

theorem toInt_max_zero (n : Int64) : (max n 0).toInt = max n.toInt 0 := by
  have hzero : (0 : Int64).toInt = 0 := rfl
  show (if n ≤ 0 then 0 else n).toInt = max n.toInt 0
  split
  · next h =>
    rw [Int64.le_iff_toInt_le] at h
    omega
  · next h =>
    rw [Int64.le_iff_toInt_le] at h
    omega

end Http

section

variable [Crypto]

namespace Http

theorem intervals_cons_cons (a b : Block) (rest : List Block) :
    intervals (a::b::rest) =
      max (Checked.clampedSub b.timestamp a.timestamp) 0 :: intervals (b::rest) := rfl

theorem toInt_interval {parent b : Block} (h : parent.Paces b) :
    (max (Checked.clampedSub b.timestamp parent.timestamp) 0).toInt =
      b.timestamp.toInt - parent.timestamp.toInt ∧
    parent.timestamp.toInt < b.timestamp.toInt := by
  obtain ⟨waited, hwaited, -⟩ := h.pace
  obtain ⟨hdifference, hlater⟩ := intervalAfter_eq_ok.1 hwaited
  rw [Int64.lt_iff_toInt_lt] at hlater
  have hmin := Int64.toInt_minValue
  have hmax := Int64.toInt_maxValue
  have hfits := waited.toInt_lt
  have hsub : (Checked.clampedSub b.timestamp parent.timestamp).toInt =
      b.timestamp.toInt - parent.timestamp.toInt :=
    Checked.toInt_clampedSub (by omega) (by omega)
  refine ⟨?_, hlater⟩
  rw [toInt_max_zero, hsub]
  omega

theorem sum_intervals {first last : Block} {rest : List Block}
    (h : (first::rest).IsChain Block.Paces) (hlast : (first::rest).getLast? = some last) :
    (∀ n ∈ intervals (first::rest), 0 ≤ n.toInt) ∧
      ((intervals (first::rest)).map Int64.toInt).sum =
        last.timestamp.toInt - first.timestamp.toInt := by
  induction rest generalizing first with
  | nil =>
    obtain rfl : first = last := by simpa using hlast
    simp [intervals]
  | cons b rest ih =>
    obtain ⟨hb, hrest⟩ := List.isChain_cons_cons.1 h
    obtain ⟨hnonneg, hsum⟩ := ih hrest (by simpa using hlast)
    obtain ⟨hinterval, hlater⟩ := toInt_interval hb
    rw [intervals_cons_cons, List.map_cons, List.sum_cons, hinterval, hsum]
    refine ⟨List.forall_mem_cons.2 ⟨?_, hnonneg⟩, by omega⟩
    rw [hinterval]
    omega

theorem statsResponse_eq_ok {s : Snapshot} {seconds : Int64}
    (h : total (intervals s.recent) = .ok seconds) (chain : Bytes) :
    ∃ response, statsResponse chain s = .ok response := by
  by_cases hempty : (intervals s.recent).isEmpty = true
  · simp only [statsResponse, average?, if_pos hempty]
    exact ⟨_, rfl⟩
  · simp only [statsResponse, average?, if_neg hempty, h]
    exact ⟨_, rfl⟩

theorem statsResponse_eq_error {s : Snapshot} {cause : Overflow}
    (h : total (intervals s.recent) = .error cause) (chain : Bytes) :
    statsResponse chain s = .error cause := by
  by_cases hempty : (intervals s.recent).isEmpty = true
  · rw [List.isEmpty_iff.1 hempty] at h
    cases h
  · simp only [statsResponse, average?, if_neg hempty, h]
    rfl

theorem run_query_ok {α : Type} {q : Repository → Query α} {r : Repository} {x : α}
    (h : q r = .ok x) : (Handler.query q).run.run r = (.ok x, r) := by
  rw [Handler.query, Transition.run_get_bind, h]
  rfl

end Http

theorem filter_height_eq_drop {first : Block} {rest : List Block}
    (h : (first::rest).IsChain Block.Under) {start : Int64}
    (hstart : first.height.toInt ≤ start.toInt) :
    (first::rest).filter (start ≤ ·.height) =
      (first::rest).drop (start.toInt - first.height.toInt).toNat := by
  have hrises := Block.pairwise_height_lt (h.imp fun _ _ hu => hu.height_lt)
  by_cases hle : start.toInt ≤ first.height.toInt
  · -- all heights are from the start on
    have hzero : (start.toInt - first.height.toInt).toNat = 0 := by omega
    rw [hzero, List.drop_zero, List.filter_eq_self]
    intro b hb
    rw [decide_eq_true_eq, Int64.le_iff_toInt_le]
    rcases List.mem_cons.1 hb with rfl | hb
    · exact hle
    · have hlt := List.rel_of_pairwise_cons hrises hb
      omega
  · obtain ⟨n, hn⟩ : ∃ n, (start.toInt - first.height.toInt).toNat = n + 1 :=
      ⟨_, (Nat.succ_pred (by omega)).symm⟩
    have hfirst : ¬ start ≤ first.height := by rwa [Int64.le_iff_toInt_le]
    rw [List.filter_cons_of_neg (by simpa using hfirst), hn, List.drop_succ_cons]
    cases rest with
    | nil => simp
    | cons b rest =>
      obtain ⟨hu, hrest⟩ := List.isChain_cons_cons.1 h
      have hheight := Checked.toInt_succ? hu.2
      rw [filter_height_eq_drop hrest (by omega)]
      congr 1
      omega

variable {K : Registry} {A : Book} {r : Repository}

theorem range_window {main : List Block} {tip : Block} (hlinked : main.IsChain Block.Under)
    (hheight : ∀ first ∈ main.head?, first.height = 0) (htip : main.getLast? = some tip) :
    (main.filter ((max (Checked.clampedSub tip.height (Int64.ofNat Http.statsWindow)) 0) ≤
        ·.height)).take (Http.statsWindow + 1) =
      main.drop (main.length - (Http.statsWindow + 1)) := by
  cases main with
  | nil => rfl
  | cons first rest =>
    have hzero : first.height.toInt = 0 := by
      rw [hheight first rfl]
      rfl
    have hlast := Block.height_getLast hlinked htip
    have hwindow : (Int64.ofNat Http.statsWindow).toInt = 10 := by decide
    have hmin := Int64.toInt_minValue
    have hmax := Int64.toInt_maxValue
    have hfits := tip.height.toInt_lt
    have hclamped : (Checked.clampedSub tip.height (Int64.ofNat Http.statsWindow)).toInt =
        tip.height.toInt - 10 := by
      rw [Checked.toInt_clampedSub (by omega) (by omega), hwindow]
    have hstart : (max (Checked.clampedSub tip.height (Int64.ofNat Http.statsWindow)) 0).toInt =
        max (rest.length - 10 : Int) 0 := by
      rw [Http.toInt_max_zero, hclamped]
      omega
    rw [filter_height_eq_drop hlinked (by omega), hstart, hzero]
    have hdrop : (max (rest.length - 10 : Int) 0 - 0).toNat =
        (first::rest).length - (Http.statsWindow + 1) := by
      rw [List.length_cons, Http.statsWindow]
      omega
    rw [hdrop, List.take_of_length_le]
    rw [List.length_drop]
    omega

namespace Http

structure Measures (r : Repository) (chain : Bytes) (s : Snapshot) (first : Block) : Prop where
  drawn : snapshot r chain = .ok (some s)
  begins : s.recent.head? = some first
  ends : s.recent.getLast? = some s.tip
  sum : ((intervals s.recent).map Int64.toInt).sum =
    s.tip.timestamp.toInt - first.timestamp.toInt
  answered : s.tip.timestamp.toInt - first.timestamp.toInt < 2 ^ 63 → ∃ seconds response,
    total (intervals s.recent) = .ok seconds ∧
      seconds.toInt = s.tip.timestamp.toInt - first.timestamp.toInt ∧
      statsResponse chain s = .ok response ∧ (statistics chain).run.run r = (.ok response, r)
  overflows : 2 ^ 63 ≤ s.tip.timestamp.toInt - first.timestamp.toInt →
    total (intervals s.recent) = .error .addition ∧
      (statistics chain).run.run r = (.error (.overflow .addition), r)

theorem run_statistics_none {chain : Bytes} (h : snapshot r chain = .ok none) :
    (statistics chain).run.run r = (.error (.response (.plain 404 "unknown chain")), r) := by
  rw [statistics, Transition.run_bind_ok (run_query_ok h)]
  rfl

theorem run_statistics_some {chain : Bytes} {s : Snapshot} (h : snapshot r chain = .ok (some s)) :
    (statistics chain).run.run r =
      (match statsResponse chain s with
        | .ok response => .ok response
        | .error cause => .error (.overflow cause), r) := by
  rw [statistics, Transition.run_bind_ok (run_query_ok h)]
  dsimp only
  cases statsResponse chain s <;> rfl

variable (hA : A.Sound K) (hr : r.Keeps A)
include hA hr

theorem snapshot_none {chain : Bytes} (h : A.main chain = []) : snapshot r chain = .ok none := by
  simp only [snapshot, hr.tip_eq hA, hr.tail_eq hA, h]
  rfl

theorem range_of_indexed (h : Indexed K r) (chain : Bytes) (start : Int64) (limit : Nat) :
    r.range chain start limit =
      .ok (((A.main chain).filter (start ≤ ·.height)).take limit) := by
  obtain ⟨D, hcurrent⟩ := h.current
  have hsame : D.main chain = A.main chain :=
    (hr.spine hA chain).unique (hcurrent.keeps.spine hcurrent.durable.sound chain)
  rw [hcurrent.range_eq, hsame]

theorem measures_of_paced (h : Indexed K r) {chain : Bytes} (hpaced : Paced (A.main chain))
    {tip : Block} (htip : (A.main chain).getLast? = some tip) :
    ∃ s first, s.tip = tip ∧
      s.recent = (A.main chain).drop ((A.main chain).length - (statsWindow + 1)) ∧
      Measures r chain s first := by
  have hwindow := range_window (hA.linked chain) (fun b hb => (hpaced.opens b hb).2.1) htip
  let s : Snapshot := {
    tip
    tail := (A.main chain).head?
    peers := (r.peers chain).known.elements.length
    recent := (A.main chain).drop ((A.main chain).length - (statsWindow + 1)) }
  have hsnapshot : snapshot r chain = .ok (some s) := by
    simp only [snapshot, hr.tip_eq hA, hr.tail_eq hA, htip, bind, Except.bind,
      range_of_indexed hA hr h, hwindow]
    rfl
  have hne : A.main chain ≠ [] := List.ne_nil_of_mem (List.mem_of_getLast? htip)
  have hshort : (A.main chain).length - (statsWindow + 1) < (A.main chain).length :=
    Nat.sub_lt (List.length_pos_iff.2 hne) (by decide)
  have hlast : s.recent.getLast? = some tip := by
    rw [List.getLast?_drop, if_neg (by omega), htip]
  have hsteps : s.recent.IsChain Block.Paces := hpaced.steps.drop _
  obtain ⟨first, rest, hrecent⟩ := List.exists_cons_of_ne_nil
    (List.ne_nil_of_mem (List.mem_of_getLast? hlast))
  rw [hrecent] at hlast hsteps
  obtain ⟨hnonneg, hsum⟩ := sum_intervals hsteps hlast
  rw [← hrecent] at hnonneg hsum hlast
  refine ⟨s, first, rfl, rfl, hsnapshot, by rw [hrecent]; rfl, hlast, hsum, fun hfits => ?_,
    fun hbeyond => ?_⟩
  · obtain ⟨seconds, htotal, hseconds⟩ := total_eq_ok hnonneg (hsum.trans_lt hfits)
    obtain ⟨response, hresponse⟩ := statsResponse_eq_ok htotal chain
    refine ⟨seconds, response, htotal, hseconds.trans hsum, hresponse, ?_⟩
    rw [run_statistics_some hsnapshot, hresponse]
  · have htotal := total_eq_error hnonneg (hbeyond.trans_eq hsum.symm)
    rw [run_statistics_some hsnapshot, statsResponse_eq_error htotal]
    exact ⟨htotal, rfl⟩

end Http

namespace NodeStep

theorem exists_paced {steps : List NodeStep} (h : Admissible (blocks steps)) :
    Indexed h.registry (run steps) ∧
      ∃ A : Book, A.Sound h.registry ∧ (run steps).Keeps A ∧ ∀ c, Paced (A.main c) := by
  have hopens : ∀ step ∈ steps, ∀ call ∈ step.calls, call.Opens Paced :=
    fun _ _ call _ => call.opens_paced
  refine ⟨?_, (between_of_law law_paced h hopens).1.staged⟩
  exact foldl_indexed law_paced steps (.empty _) ⟨steady_empty law_paced _, .empty⟩
    (fun b hb => ⟨b, hb, rfl⟩) hopens

/-- After whatever steps, the statistics of a chain are drawn from its last
eleven blocks, or from all if there are fewer. The intervals between them add up
to the time between the first and the last. If that is a number there is an
answer, and if not the addition overflows. -/
theorem run_statistics {steps : List NodeStep} (h : Admissible (blocks steps)) (chain : Bytes) :
    ∃ main, Spine (run steps) chain main ∧
      (main = [] → (Http.statistics chain).run.run (run steps) =
        (.error (.response (.plain 404 "unknown chain")), run steps)) ∧
      ∀ tip ∈ main.getLast?, ∃ s first, s.tip = tip ∧
        s.recent = main.drop (main.length - (Http.statsWindow + 1)) ∧
        Http.Measures (run steps) chain s first := by
  obtain ⟨hindexed, A, hA, hr, hpaced⟩ := exists_paced h
  refine ⟨A.main chain, hr.spine hA chain, fun hempty => ?_, fun tip htip => ?_⟩
  · exact Http.run_statistics_none (Http.snapshot_none hA hr hempty)
  · exact Http.measures_of_paced hA hr hindexed (hpaced chain) htip

end NodeStep

end

section

attribute [local instance] checksum

def noteAfter (parent : Block) (waited : Int64) : Block :=
  let timestamp := parent.timestamp + waited
  let baseTarget := Consensus.nextBaseTarget parent.baseTarget waited
  Block.sign (.hashed
    { parent.toContent with
      timestamp
      height := parent.height + 1
      parent := parent.hash
      baseTarget
      cumulativeDifficulty := Consensus.nextDifficulty parent.cumulativeDifficulty baseTarget
      generationSignature :=
        Consensus.generationSignature parent.generationSignature founder.key
      transaction := founder.note timestamp [] })
    founder.seed

def early : Block := founder.genesis Int64.minValue 1000

def middle : Block := noteAfter early Int64.maxValue

def late : Block := noteAfter middle Int64.maxValue

theorem stored_early : early.stored = early ∧ middle.stored = middle ∧ late.stored = late := by
  decide +kernel

def earlyBook : Book := Book.empty.pushTip early

def middleBook : Book := earlyBook.pushTip middle

def lateBook : Book := middleBook.pushTip late

theorem tipFits_middle : TipFits middle [early] early Int64.maxValue := by decide +kernel

theorem tipFits_late : TipFits late [early, middle] middle Int64.maxValue := by decide +kernel

theorem submits_middle {K : Registry} (hearly : K.known early.stored)
    (hmiddle : K.known middle.stored) : middleBook.Sound K ∧
      Submits middle (NodeStep.run [.submit early]) (.ok .extendsTip) middleBook := by
  obtain ⟨hsound, placement, hopened⟩ : earlyBook.Sound K ∧
      ∃ placement, Submits early .empty (.ok placement) earlyBook := by
    have h := submits_opening hearly (by decide +kernel)
    rwa [stored_early.1] at h
  have hjoined := hopened.settled.submits_next hsound hopened.keeps hmiddle
    (by decide +kernel) tipFits_middle
  rwa [stored_early.2.1] at hjoined

theorem submits_late {K : Registry} (hearly : K.known early.stored)
    (hmiddle : K.known middle.stored) (hlate : K.known late.stored) : lateBook.Sound K ∧
      Submits late (NodeStep.run [.submit early, .submit middle]) (.ok .extendsTip) lateBook := by
  obtain ⟨hsound, hopened⟩ := submits_middle hearly hmiddle
  have hjoined := hopened.settled.submits_next hsound hopened.keeps hlate
    (by decide +kernel) tipFits_late
  rwa [stored_early.2.2] at hjoined

/-- Two blocks may be as far apart as a number can say. -/
theorem NodeStep.run_statistics_middle :
    Admissible (blocks [.submit early, .submit middle]) ∧
    ∃ (s : Http.Snapshot) (response : Http.Response), s.recent = [early, middle] ∧
      Http.total (Http.intervals s.recent) = .ok Int64.maxValue ∧
      (Http.statistics [0x61]).run.run (run [.submit early, .submit middle]) =
        (.ok response, run [.submit early, .submit middle]) := by
  have h : Admissible (blocks [.submit early, .submit middle]) := by
    decide +kernel
  have known {b : Block} (hb : b ∈ [early, middle]) : h.registry.known b.stored := ⟨b, hb, rfl⟩
  obtain ⟨hsound, hjoined⟩ := submits_middle (known (by simp)) (known (by simp))
  obtain ⟨main, hspine, -, htip⟩ := run_statistics h [0x61]
  have hmain : main = [early, middle] :=
    ((hjoined.keeps.spine hsound [0x61]).unique hspine).trans (by decide +kernel)
  subst hmain
  obtain ⟨s, first, hs, hrecent, hmeasures⟩ := htip middle rfl
  obtain rfl : early = first := by
    have hbegins := hmeasures.begins
    rw [hrecent] at hbegins
    exact Option.some.inj hbegins
  obtain ⟨seconds, response, htotal, hseconds, -, hrun⟩ :=
    hmeasures.answered (by rw [hs]; decide +kernel)
  have hmost : seconds = Int64.maxValue := by
    rw [← Int64.toInt_inj, hseconds, hs]
    decide +kernel
  rw [hmost] at htotal
  exact ⟨h, s, response, hrecent, htotal, hrun⟩

/-- Three blocks, each within reach of the next, are too much for one number. -/
theorem NodeStep.run_statistics_late :
    Admissible (blocks [.submit early, .submit middle, .submit late]) ∧
    (Http.statistics [0x61]).run.run (run [.submit early, .submit middle, .submit late]) =
      (.error (.overflow .addition), run [.submit early, .submit middle, .submit late]) := by
  have h : Admissible (blocks [.submit early, .submit middle, .submit late]) := by
    decide +kernel
  have known {b : Block} (hb : b ∈ [early, middle, late]) : h.registry.known b.stored :=
    ⟨b, hb, rfl⟩
  obtain ⟨hsound, hjoined⟩ := submits_late (known (by simp)) (known (by simp)) (known (by simp))
  obtain ⟨hindexed, A, hA, hr, hpaced⟩ := exists_paced h
  have hmain : A.main [0x61] = [early, middle, late] :=
    ((hjoined.keeps.spine hsound [0x61]).unique (hr.spine hA [0x61])).trans (by decide +kernel)
  have htip : (A.main [0x61]).getLast? = some late := by
    rw [hmain]
    rfl
  obtain ⟨s, first, hs, hrecent, hmeasures⟩ :=
    Http.measures_of_paced hA hr hindexed (hpaced [0x61]) htip
  obtain rfl : early = first := by
    have hbegins := hmeasures.begins
    rw [hrecent, hmain] at hbegins
    exact Option.some.inj hbegins
  exact ⟨h, (hmeasures.overflows (by rw [hs]; decide +kernel)).2⟩

end

end ChainState
