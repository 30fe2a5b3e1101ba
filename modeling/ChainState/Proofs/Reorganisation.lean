import ChainState.Proofs.Balances

/-!
# What a switch of branches does

On any repository that a node can reach, a branch is switched to exactly if it
may replace the best chain. The best chain is then the old one up to the fork
point and the branch above it, and what it lost is kept beside it. In every
other case nothing has changed, however far the attempt went.
-/

set_option autoImplicit false

namespace ChainState

section

variable [Crypto]

/-- The block is stored, and listed at its height beside the best chain. -/
structure Beside (r : Repository) (b : Block) : Prop where
  stored : r.findBlock b.hash = .ok (some b)
  listed : ∃ record, r.findHeight b.chain b.height = .ok (some record) ∧
    record.forks.contains b.hash = true
  off : r.mainHashAt b.chain b.height ≠ .ok (some b.hash)

theorem Repository.Keeps.beside {K : Registry} {A : Book} {r : Repository} {b : Block}
    (hr : r.Keeps A) (hA : A.Sound K) (hb : A.fork b) : Beside r b where
  stored := hr.findBlock_of_holds hA (.inr hb)
  listed := by
    obtain ⟨record, hq, -, hfork⟩ := hr.fork_listed hb
    exact ⟨record, hq, hfork⟩
  off := by
    rw [hr.mainHashAt_eq hA, ne_eq, Except.ok.injEq]
    exact Book.mainAt_ne_fork hA hb _ _

/-- The best chain of `chain` is the branch on top of what lies below it, the
other best chains are the old ones, and the blocks of `hi` lie beside. -/
structure Switched (s : Repository) (main : Bytes → List Block) (branch : List Block)
    (chain : Bytes) (lo : List Block) (fork : Block) (hi : List Block) : Prop where
  spine : Spine s chain (lo ++ fork::branch.map Block.stored)
  others : ∀ c, c ≠ chain → Spine s c (main c)
  beside : ∀ b ∈ hi, b ∉ branch.map Block.stored → Beside s b

/-- A switch, on every repository that a node can reach and for every branch.
An attempt that does not end in a switch leaves the repository as it was; the
overlay in which it was made takes all its changes with it. -/
theorem NodeCall.run_switch {calls : List NodeCall} {branch : List Block}
    (h : Admissible (blocksFrom .empty calls ++ branch)) :
    ∃ main : Bytes → List Block, (∀ chain, Spine (run calls) chain (main chain)) ∧
      ((∃ s, Branch.switch (run calls) branch = (.ok .switched, s)) ↔
        ∃ chain lo fork hi, Branch.Replaces main branch chain lo fork hi) ∧
      (∀ s chain lo fork hi, Branch.switch (run calls) branch = (.ok .switched, s) →
        Branch.Replaces main branch chain lo fork hi →
          Switched s main branch chain lo fork hi) ∧
      ((∀ s, Branch.switch (run calls) branch ≠ (.ok .switched, s)) →
        perform (run calls) (.switch branch) = run calls) ∧
      ∀ tip forkPoint,
        ((Branch.rebase tip forkPoint branch).run.run (run calls).track).2.untrack =
          run calls := by
  have hsteady := steady_of_admissible h
  obtain ⟨A, hA, hr, -⟩ := hsteady.staged
  have hknown : ∀ b ∈ branch, h.registry.known b.stored := fun b hb =>
    ⟨b, List.mem_append_right _ hb, rfl⟩
  refine ⟨A.main, hr.spine hA, ⟨?_, ?_⟩, ?_, ?_, ?_⟩
  · rintro ⟨s, hs⟩
    exact Branch.replaces_of_switch hA hr hknown (congrArg Prod.fst hs)
  · rintro ⟨chain, lo, fork, hi, hreplaces⟩
    obtain ⟨-, f, hrun, -⟩ := Branch.switch_of_replaces hA hr hknown hreplaces
    exact ⟨_, hrun⟩
  · intro s chain lo fork hi hs hreplaces
    obtain ⟨hsound, f, hrun, hkeeps⟩ := Branch.switch_of_replaces hA hr hknown hreplaces
    rw [hrun] at hs
    cases hs
    have hnow := hkeeps.congr ((run calls).value_handDown_amend_track f)
    refine ⟨?_, fun c hc => ?_, fun b hb hoff => ?_⟩
    · have hspine := hnow.spine hsound chain
      rw [Branch.main_rebased hreplaces.onChain, if_pos rfl] at hspine
      simpa using hspine
    · have hspine := hnow.spine hsound c
      rwa [Branch.main_rebased hreplaces.onChain, if_neg hc] at hspine
    · exact hnow.beside hsound (Branch.fork_rebased b |>.2 ⟨.inr hb, hoff⟩)
  · intro hnot
    exact Branch.snd_switch_of_ne fun hs => hnot _ (Prod.ext hs rfl)
  · intro tip forkPoint
    exact Branch.untrack_rebase tip forkPoint branch (run calls)

end

section

attribute [local instance] checksum

def rivalBranch : List Block :=
  [rival, sealOn rival (founder.note 1200 []) ⟨⟨1000, 0⟩, .zero, .zero⟩]

theorem admissible_rivalBranch :
    Admissible (NodeCall.blocksFrom .empty paidCalls ++ rivalBranch) := by
  rw [blocksFrom_paidCalls]
  decide +kernel

theorem stored_rivalBranch : rivalBranch.map Block.stored = rivalBranch := by decide +kernel

theorem known_rivalBranch {b : Block} (hb : b ∈ [opening, payment] ++ rivalBranch) :
    admissible_rivalBranch.registry.known b.stored :=
  ⟨b, hb, rfl⟩

theorem tipFits_rivalBranch : TipFits rival ([opening].map Block.stored) opening 600 ∧
    ∀ b ∈ rivalBranch.getLast?, TipFits b ([opening, rival].map Block.stored) rival 600 := by
  decide +kernel

theorem passes_rivalBranch : Branch.Passes [opening] rivalBranch := by
  obtain ⟨hfirst, hlast⟩ := tipFits_rivalBranch
  have hgrows : Branch.Grows admissible_rivalBranch.registry [0x61] [opening] :=
    Branch.grows_of_linked (fun b hb => known_rivalBranch (by simp_all)) (by decide) (by simp)
  have hrival := hgrows.passes rfl hfirst
  have hgrown := hgrows.step (known_rivalBranch (by simp [rivalBranch])) rfl hrival
  exact Branch.passes_cons.2 ⟨hrival, Branch.passes_cons.2
    ⟨hgrown.passes rfl (hlast _ rfl), Branch.passes_nil _⟩⟩

theorem replaces_rivalBranch {main : Bytes → List Block}
    (hmain : main [0x61] = [opening, payment]) :
    Branch.Replaces main rivalBranch [0x61] [] opening [payment] where
  split := hmain
  nonempty := List.cons_ne_nil _ _
  onChain := by decide
  linked := by decide +kernel
  parent := by decide +kernel
  depth := by
    rw [hmain]
    decide +kernel
  passes := passes_rivalBranch
  heavier := by
    rw [hmain]
    decide +kernel

theorem keeps_switched : ∃ (K : Registry) (B : Book), B.Sound K ∧
    (Branch.switch (NodeCall.run paidCalls) rivalBranch).2.Keeps B ∧
    B.main [0x61] = opening::rivalBranch := by
  have hreplaces := replaces_rivalBranch main_paidBook
  obtain ⟨hA, hr⟩ := keeps_paidCalls (stored_paid.1 ▸ known_rivalBranch (b := opening) (by simp))
    (stored_paid.2 ▸ known_rivalBranch (b := payment) (by simp))
  obtain ⟨hsound, f, hrun, hkeeps⟩ := Branch.switch_of_replaces hA hr
    (fun b hb => known_rivalBranch (List.mem_append_right _ hb)) hreplaces
  refine ⟨_, _, hsound, ?_, ?_⟩
  · rw [hrun]
    exact hkeeps.congr ((NodeCall.run paidCalls).value_handDown_amend_track f)
  · rw [Branch.main_rebased hreplaces.onChain, if_pos rfl, stored_rivalBranch]
    rfl

/-- The node switches, and keeps the payment beside the chain. -/
theorem NodeCall.run_switch_rival :
    Admissible (blocksFrom .empty paidCalls ++ rivalBranch) ∧
    Spine (run paidCalls) [0x61] [opening, payment] ∧
    ∃ s, Branch.switch (run paidCalls) rivalBranch = (.ok .switched, s) ∧
      Spine s [0x61] (opening::rivalBranch) ∧ Beside s payment := by
  obtain ⟨main, hspine, hiff, hswitched, -, -⟩ := run_switch admissible_rivalBranch
  have hreplaces := replaces_rivalBranch (spine_paidCalls.unique (hspine [0x61]))
  obtain ⟨s, hs⟩ := hiff.2 ⟨_, _, _, _, hreplaces⟩
  have hafter := hswitched s _ _ _ _ hs hreplaces
  refine ⟨admissible_rivalBranch, spine_paidCalls, s, hs, ?_,
    hafter.beside payment (by simp) (by decide +kernel)⟩
  have hmain := hafter.spine
  rwa [stored_rivalBranch] at hmain

end

end ChainState
