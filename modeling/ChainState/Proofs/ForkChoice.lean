import ChainState.Proofs.Rebase

/-!
# When a branch replaces the best chain

A branch is switched to exactly if it is one that may replace the best chain
above its fork point: it links, its parent is not too deep, each of its blocks
passes validation where it would stand, and it ends heavier than the tip.
-/

set_option autoImplicit false

namespace ChainState

variable [Crypto]

theorem Block.height_getLast {fork tip : Block} {hi : List Block}
    (h : (fork::hi).IsChain Block.Under) (htip : (fork::hi).getLast? = some tip) :
    tip.height.toInt = fork.height.toInt + hi.length := by
  induction hi generalizing fork with
  | nil =>
    obtain rfl : fork = tip := by simpa using htip
    simp
  | cons b rest ih =>
    obtain ⟨hu, hrest⟩ := List.isChain_cons_cons.1 h
    have hlast := ih hrest (by simpa using htip)
    have hheight := Checked.toInt_succ? hu.2
    rw [List.length_cons]
    omega

namespace Branch

open Transition

structure Replaces (main : Bytes → List Block) (branch : List Block) (chain : Bytes)
    (lo : List Block) (fork : Block) (hi : List Block) : Prop where
  split : main chain = lo ++ fork::hi
  nonempty : branch ≠ []
  onChain : ∀ b ∈ branch, b.chain = chain
  linked : branch.IsChain fun a b => b.parent = a.hash
  parent : ∀ first ∈ branch.head?, first.parent = fork.hash
  depth : ∀ tip ∈ (main chain).getLast?, tip.height.toInt - fork.height.toInt ≤ 288
  passes : Passes (lo ++ [fork]) branch
  heavier : ∀ tip ∈ (main chain).getLast?, ∀ last ∈ branch.getLast?,
    tip.cumulativeDifficulty < last.cumulativeDifficulty

theorem gap?_eq_none {chain : Bytes} {parent : Block} {rest : List Block} :
    gap? chain parent rest = none ↔
      (parent::rest).IsChain (fun a b => b.parent = a.hash) ∧ ∀ b ∈ rest, b.chain = chain := by
  induction rest generalizing parent with
  | nil => simp [gap?]
  | cons b rest ih =>
    rw [gap?, List.isChain_cons_cons]
    split
    · next h =>
      rw [ih]
      simp [h.1, h.2]
    · next h =>
      simp only [reduceCtorEq, false_iff]
      rintro ⟨⟨hp, -⟩, hc⟩
      exact h ⟨hp, hc b (by simp)⟩

variable {K : Registry} {A : Book} {r s : Repository} {c : Bytes}

theorem depth_le_iff (tip fork : Block) :
    ¬ Consensus.maxReorgDepth < Checked.clampedSub tip.height fork.height ↔
      tip.height.toInt - fork.height.toInt ≤ 288 := by
  have hd : Consensus.maxReorgDepth.toInt = 288 := by decide
  have hmin : Int64.minValue.toInt = -9223372036854775808 := by decide
  have hmax : Int64.maxValue.toInt = 9223372036854775807 := by decide
  rw [Int64.lt_iff_toInt_lt, hd, Checked.clampedSub, hmin, hmax,
    Int64.toInt_ofInt_of_le (by omega) (by omega)]
  omega

theorem checkForkPoint_eq_ok (hA : A.Sound K) (hr : r.Keeps A) {x : Hash} {tip : Block} :
    checkForkPoint r c x = .ok tip ↔ ∃ lo fork hi, A.main c = lo ++ fork::hi ∧ fork.hash = x ∧
      (A.main c).getLast? = some tip ∧ tip.height.toInt - fork.height.toInt ≤ 288 := by
  constructor
  · intro h
    rcases hr.findBlock_cases hA x with ⟨b, hb, rfl, hq⟩ | ⟨-, hq⟩
    · simp only [checkForkPoint, hq, hr.mainHashAt_eq hA, hr.tip_eq hA, Except.mapError, bind,
        Except.bind] at h
      split at h
      · cases h
      · next hmain =>
        obtain ⟨fork, hfork, he⟩ := Option.map_eq_some_iff.1 (not_not.1 hmain)
        obtain ⟨hmem, hheight⟩ := (Book.mainAt_eq_some hA).1 hfork
        obtain ⟨lo, hi, hm⟩ := List.append_of_mem hmem
        cases ht : (A.main c).getLast? with
        | none =>
          rw [ht] at h
          cases h
        | some t =>
          rw [ht] at h
          dsimp only at h
          split at h
          · cases h
          · next hdepth =>
            cases h
            refine ⟨lo, fork, hi, hm, he, rfl, ?_⟩
            rw [hheight]
            exact (depth_le_iff tip b).1 hdepth
    · rw [checkForkPoint, hq] at h
      cases h
  · rintro ⟨lo, fork, hi, hm, rfl, htip, hdepth⟩
    have hmem : fork ∈ A.main c := by simp [hm]
    have hmain : A.mainAt c fork.height = some fork := (Book.mainAt_eq_some hA).2 ⟨hmem, rfl⟩
    have hnot := (depth_le_iff tip fork).2 hdepth
    simp only [checkForkPoint, hr.findBlock_of_holds hA (hA.holds_of_mem hmem),
      hr.mainHashAt_eq hA, hmain, hr.tip_eq hA, htip, Except.mapError, bind, Except.bind,
      Option.map_some, ne_eq, not_true_eq_false, if_false, hnot]
    rfl

variable {lo hi branch : List Block} {fork tip : Block}

def rebased (A : Book) (branch : List Block) (chain : Bytes) (lo : List Block) (fork : Block)
    (hi : List Block) : Book :=
  (A.cut chain (lo ++ [fork]) hi).grow branch

theorem main_rebased (h : ∀ b ∈ branch, b.chain = c) (d : Bytes) :
    (rebased A branch c lo fork hi).main d =
      if d = c then (lo ++ [fork]) ++ branch.map Block.stored else A.main d := by
  rw [rebased, Book.main_grow _ h, Book.main_cut, if_pos rfl, Book.main_cut]
  split <;> rfl

theorem fork_rebased (f : Block) : (rebased A branch c lo fork hi).fork f ↔
    (A.fork f ∨ f ∈ hi) ∧ f ∉ branch.map Block.stored := by
  rw [rebased, Book.fork_grow, Book.cut]

theorem map_stored_of_known {blocks : List Block} (h : ∀ b ∈ blocks, K.known b) :
    blocks.map Block.stored = blocks := by
  conv_rhs => rw [← List.map_id blocks]
  exact List.map_congr_left fun b hb => K.stored b (h b hb)

theorem grows_below (hA : A.Sound K) (hm : A.main c = lo ++ fork::hi) :
    Grows K c (lo ++ [fork]) ∧ (lo ++ [fork]).map Block.stored = lo ++ [fork] := by
  have hsub : ∀ b ∈ lo ++ [fork], b ∈ A.main c := by
    intro b hb
    rw [hm, List.append_cons]
    exact List.mem_append_left hi hb
  have hstored := map_stored_of_known fun b hb => hA.known c b (hsub b hb)
  refine ⟨grows_of_linked (fun b hb => ?_) (fun b hb => hA.chain c b (hsub b hb)) ?_, hstored⟩
  · have hb := hA.known c b (hsub b hb)
    rwa [K.stored b hb]
  · have hlinked := hA.linked c
    rw [hm, List.append_cons] at hlinked
    rw [hstored]
    exact hlinked.left_of_append

theorem sound_below (hA : A.Sound K) (hm : A.main c = lo ++ fork::hi) :
    (A.cut c (lo ++ [fork]) hi).Sound K ∧
      (A.cut c (lo ++ [fork]) hi).main c = (lo ++ [fork]).map Block.stored := by
  refine ⟨Book.sound_cut hi hA (by simp [hm]), ?_⟩
  rw [(grows_below hA hm).2, Book.main_cut, if_pos rfl]

section

variable (hA : A.Sound K) (hr : r.Keeps A) (hm : A.main c = lo ++ fork::hi)
  (htip : (A.main c).getLast? = some tip)
  (hdepth : tip.height.toInt - fork.height.toInt ≤ 288)
  (hknown : ∀ b ∈ branch, K.known b.stored) (hchain : ∀ b ∈ branch, b.chain = c)

include hA hr hm htip hdepth

theorem ends_wayDown (steps : Nat) :
    Ends (rollBackTo fork.hash (Consensus.maxReorgDepth.toInt.toNat + steps + 1) tip) r
      fun _ s => s.Keeps (A.cut c (lo ++ [fork]) hi) := by
  have hlinked := hA.linked c
  have hlast := htip
  rw [hm] at hlinked hlast
  rw [List.getLast?_append_of_ne_nil _ (List.cons_ne_nil _ _)] at hlast
  have hheight := Block.height_getLast hlinked.right_of_append hlast
  have hlimit : Consensus.maxReorgDepth.toInt.toNat = 288 := by decide
  exact ends_rollBackTo hi hA hr hm htip (by omega)

include hknown hchain

theorem ends_rebase (hpasses : Passes (lo ++ [fork]) branch) :
    (rebased A branch c lo fork hi).Sound K ∧
      Ends (rebase tip fork.hash branch) r fun _ s =>
        s.Keeps (rebased A branch c lo fork hi) := by
  obtain ⟨hgrows, -⟩ := grows_below hA hm
  obtain ⟨hcut, hmain⟩ := sound_below hA hm
  have hup : ∀ s : Repository, s.Keeps (A.cut c (lo ++ [fork]) hi) → _ := fun s hs =>
    ends_forM_extend branch hcut hs hgrows hmain hknown hchain hpasses
  have hdown := ends_wayDown hA hr hm htip hdepth r.recordCount
  refine ⟨(hup _ hdown.snd).1, ?_⟩
  rw [Ends, run_rebase]
  exact ends_bind.2 (hdown.mono fun _ s hs => (hup s hs).2)

theorem rebase_error (hpasses : ¬ Passes (lo ++ [fork]) branch) :
    ∃ e s, (rebase tip fork.hash branch).run.run r = (.error e, s) := by
  obtain ⟨hgrows, -⟩ := grows_below hA hm
  obtain ⟨hcut, hmain⟩ := sound_below hA hm
  obtain ⟨x, s, hdown, hs⟩ := ends_wayDown hA hr hm htip hdepth r.recordCount
  obtain ⟨e, s', herr⟩ := forM_extend_error branch hcut hs hgrows hmain hknown hchain hpasses
  exact ⟨e, s', (run_rebase ..).trans ((run_bind_ok hdown).trans herr)⟩

end

/-- A branch that may replace the best chain does so. -/
theorem switch_of_replaces (hA : A.Sound K) (hr : r.Keeps A)
    (hknown : ∀ b ∈ branch, K.known b.stored) (h : Replaces A.main branch c lo fork hi) :
    (rebased A branch c lo fork hi).Sound K ∧ ∃ f,
      switch r branch = (.ok .switched, (r.track.amend f).handDown.untrack) ∧
      (r.track.amend f).Keeps (rebased A branch c lo fork hi) := by
  obtain ⟨tip, htip⟩ : ∃ tip, (A.main c).getLast? = some tip :=
    ⟨_, List.getLast?_eq_some_getLast (by simp [h.split])⟩
  have hdepth := h.depth tip htip
  have hr' : r.track.Keeps A := hr.congr r.value_track
  obtain ⟨hsound, x, s, hrun, hs⟩ :=
    ends_rebase hA hr' h.split htip hdepth hknown h.onChain h.passes
  obtain ⟨f, hf⟩ := local_rebase tip fork.hash branch r.track
  rw [hrun] at hf
  subst hf
  refine ⟨hsound, f, ?_, hs⟩
  cases branch with
  | nil => exact absurd rfl h.nonempty
  | cons first rest =>
    obtain rfl := h.onChain first (by simp)
    have hparent := h.parent first rfl
    have hgap : gap? first.chain first rest = none :=
      gap?_eq_none.2 ⟨h.linked, fun b hb => h.onChain b (by simp [hb])⟩
    have hfork : checkForkPoint r first.chain fork.hash = .ok tip :=
      (checkForkPoint_eq_ok hA hr).2 ⟨lo, fork, hi, h.split, rfl, htip, hdepth⟩
    have hheavier := h.heavier tip htip _ (List.getLast?_eq_some_getLast (List.cons_ne_nil _ _))
    simp only [switch, hgap, hparent, hfork, hrun, hheavier, if_true]

inductive Attempt (r : Repository) :
    List Block → Except SwitchError SwitchOutcome × Repository → Prop
  | refused {branch : List Block} {e : SwitchError} : Attempt r branch (.error e, r)
  | failed {first tip : Block} {rest : List Block} {session : Repository} {e : SwitchError}
      (hrun : (rebase tip first.parent (first::rest)).run.run r.track = (.error e, session)) :
      Attempt r (first::rest) (.error e, session.untrack)
  | kept {first tip : Block} {rest : List Block} {session : Repository}
      (hrun : (rebase tip first.parent (first::rest)).run.run r.track = (.ok (), session)) :
      Attempt r (first::rest) (.ok .kept, session.untrack)
  | switched {first tip : Block} {rest : List Block} {session : Repository}
      (hgap : gap? first.chain first rest = none)
      (hfork : checkForkPoint r first.chain first.parent = .ok tip)
      (hrun : (rebase tip first.parent (first::rest)).run.run r.track = (.ok (), session))
      (hheavier : ∀ last ∈ (first::rest).getLast?,
        tip.cumulativeDifficulty < last.cumulativeDifficulty) :
      Attempt r (first::rest) (.ok .switched, session.handDown.untrack)

theorem attempt_switch (r : Repository) (branch : List Block) :
    Attempt r branch (switch r branch) := by
  cases branch with
  | nil => exact .refused
  | cons first rest =>
    rw [switch]
    split
    · exact .refused
    · next hgap =>
      split
      · exact .refused
      · next tip hfork =>
        split
        · next hrun => exact .failed hrun
        · next hrun =>
          dsimp only
          split
          · next hheavier =>
            refine .switched hgap hfork hrun fun last hlast => ?_
            rw [List.getLast?_eq_some_getLast (List.cons_ne_nil _ _)] at hlast
            exact Option.some.inj hlast ▸ hheavier
          · exact .kept hrun

/-- Only a branch that may replace the best chain is switched to. -/
theorem replaces_of_switch (hA : A.Sound K) (hr : r.Keeps A)
    (hknown : ∀ b ∈ branch, K.known b.stored) (h : (switch r branch).1 = .ok .switched) :
    ∃ c lo fork hi, Replaces A.main branch c lo fork hi := by
  have hattempt := attempt_switch r branch
  generalize switch r branch = result at hattempt h
  cases hattempt with
  | refused | failed | kept => cases h
  | @switched first tip rest session hgap hfork hrun hheavier =>
    obtain ⟨hlinked, hrest⟩ := gap?_eq_none.1 hgap
    have hchain : ∀ b ∈ first::rest, b.chain = first.chain := by
      intro b hb
      rcases List.mem_cons.1 hb with rfl | hb
      · rfl
      · exact hrest b hb
    obtain ⟨lo, fork, hi, hm, hhash, htip, hdepth⟩ := (checkForkPoint_eq_ok hA hr).1 hfork
    have hr' : r.track.Keeps A := hr.congr r.value_track
    have hpasses : Passes (lo ++ [fork]) (first::rest) := by
      by_contra hnot
      obtain ⟨e, s', herr⟩ := rebase_error hA hr' hm htip hdepth hknown hchain hnot
      rw [← hhash, herr] at hrun
      cases hrun
    refine ⟨first.chain, lo, fork, hi, hm, List.cons_ne_nil _ _, hchain, hlinked, ?_, ?_,
      hpasses, ?_⟩
    · intro b hb
      obtain rfl : first = b := by simpa using hb
      exact hhash.symm
    · intro t ht
      obtain rfl : tip = t := by simpa [htip] using ht
      exact hdepth
    · intro t ht last hlast
      obtain rfl : tip = t := by simpa [htip] using ht
      exact hheavier last hlast

theorem keeps_of_switch (hA : A.Sound K) (hr : r.Keeps A)
    (hknown : ∀ b ∈ branch, K.known b.stored) (h : (switch r branch).1 = .ok .switched) :
    ∃ c lo fork hi, Replaces A.main branch c lo fork hi ∧
      (rebased A branch c lo fork hi).Sound K ∧ ∃ f,
        (switch r branch).2 = (r.track.amend f).handDown.untrack ∧
        (switch r branch).2.Keeps (rebased A branch c lo fork hi) := by
  obtain ⟨c, lo, fork, hi, hreplaces⟩ := replaces_of_switch hA hr hknown h
  obtain ⟨hsound, f, hrun, hkeeps⟩ := switch_of_replaces hA hr hknown hreplaces
  refine ⟨c, lo, fork, hi, hreplaces, hsound, f, ?_⟩
  rw [hrun]
  exact ⟨rfl, hkeeps.congr (r.value_handDown_amend_track f)⟩

theorem untrack_rebase (tip : Block) (forkPoint : Hash) (branch : List Block) (r : Repository) :
    ((rebase tip forkPoint branch).run.run r.track).2.untrack = r := by
  obtain ⟨f, hf⟩ := local_rebase tip forkPoint branch r.track
  rw [hf, Repository.untrack_amend_track]

/-- A branch that is not switched to changes nothing, however far the attempt
went. -/
theorem snd_switch_of_ne (h : (switch r branch).1 ≠ .ok .switched) : (switch r branch).2 = r := by
  have hattempt := attempt_switch r branch
  generalize switch r branch = result at hattempt h
  cases hattempt with
  | refused => rfl
  | @failed first tip rest _ _ hrun | @kept first tip rest _ hrun =>
    have hdropped := untrack_rebase tip first.parent (first::rest) r
    rwa [hrun] at hdropped
  | switched => exact absurd rfl h

theorem eq_of_switch_switched (h : (switch r branch).1 = .ok .switched) :
    ∃ first rest tip, branch = first::rest ∧
      checkForkPoint r first.chain first.parent = .ok tip ∧
      (switch r branch).2 =
        ((rebase tip first.parent branch).run.run r.track).2.handDown.untrack := by
  have hattempt := attempt_switch r branch
  generalize switch r branch = result at hattempt h ⊢
  cases hattempt with
  | refused | failed | kept => cases h
  | @switched first tip rest session hgap hfork hrun hheavier =>
    exact ⟨first, rest, tip, rfl, hfork, by rw [hrun]⟩

end Branch

end ChainState
