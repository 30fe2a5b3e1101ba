import ChainState.Proofs.BestChain
import ChainState.Proofs.ForkChoice
import ChainState.Proofs.Values

/-!
# Convergence

Repositories with histories of their own, switches of branches among them, that
have come to one best chain answer alike whatever is asked about it, and give
the same verdict on the next block. Where blocks have only been connected,
above the tip and below the tail in any order, every record is the same.
-/

set_option autoImplicit false

namespace ChainState

section

variable [Crypto]

inductive BranchCall where
  | move (call : ChainCall)
  | switch (branch : List Block)

namespace BranchCall

def blocks : BranchCall → List Block
  | .move call => call.block?.toList
  | .switch branch => branch

def perform (r : Repository) : BranchCall → Repository
  | .move call => call.perform r
  | .switch branch => (Branch.switch r branch).2

def run (calls : List BranchCall) : Repository := calls.foldl perform .empty

def Connects (chain : Bytes) : BranchCall → Prop
  | .move call => call.Connects chain
  | .switch _ => False

variable {K : Registry} {A B : Book} {r s : Repository}

inductive Makes (K : Registry) (A : Book) : BranchCall → Book → Prop
  | same {call : BranchCall} : Makes K A call A
  | moved (call : ChainCall) : Makes K A (.move call) (A.after call)
  | switched {branch lo hi : List Block} {fork : Block} {c : Bytes}
      (hknown : ∀ b ∈ branch, K.known b.stored)
      (h : Branch.Replaces A.main branch c lo fork hi) :
      Makes K A (.switch branch) (Branch.rebased A branch c lo fork hi)

theorem perform_makes (hA : A.Sound K) (hr : r.Keeps A) (call : BranchCall)
    (hcall : ∀ b ∈ call.blocks, K.known b.stored) :
    ∃ B : Book, B.Sound K ∧ (perform r call).Keeps B ∧ Makes K A call B := by
  cases call with
  | move call =>
    have hblock : ∀ b, call.block? = some b → K.known b.stored := fun b hb =>
      hcall b (by simp [blocks, hb])
    obtain ⟨hsound, hkeeps⟩ := ChainCall.perform_keeps hA hr call hblock
    exact ⟨A.after call, hsound, hkeeps, .moved call⟩
  | switch branch =>
    have hknown : ∀ b ∈ branch, K.known b.stored := hcall
    rw [perform]
    by_cases hs : (Branch.switch r branch).1 = .ok .switched
    · obtain ⟨c, lo, fork, hi, hreplaces, hsound, -, -, hkeeps⟩ :=
        Branch.keeps_of_switch hA hr hknown hs
      exact ⟨_, hsound, hkeeps, .switched hknown hreplaces⟩
    · rw [Branch.snd_switch_of_ne hs]
      exact ⟨A, hA, hr, .same⟩

theorem run_keeps {calls : List BranchCall}
    (hcalls : ∀ b ∈ calls.flatMap blocks, K.known b.stored) :
    ∃ A : Book, A.Sound K ∧ (run calls).Keeps A := by
  have hstart : ∃ A : Book, A.Sound K ∧ Repository.empty.Keeps A :=
    ⟨_, Book.sound_empty K, Repository.keeps_empty⟩
  refine List.foldlRecOn (motive := fun r => ∃ A : Book, A.Sound K ∧ r.Keeps A) calls perform
    hstart fun r ⟨A, hA, hr⟩ call hcall => ?_
  obtain ⟨B, hB, hs, -⟩ := perform_makes hA hr call fun b hb =>
    hcalls b (List.mem_flatMap.2 ⟨call, hcall, hb⟩)
  exact ⟨B, hB, hs⟩

theorem exists_moves {chain : Bytes} {calls : List BranchCall}
    (h : ∀ call ∈ calls, call.Connects chain) :
    ∃ moves : List ChainCall, (∀ call ∈ moves, call.Connects chain) ∧ calls = moves.map .move := by
  induction calls with
  | nil => exact ⟨[], by simp, rfl⟩
  | cons call calls ih =>
    obtain ⟨moves, hmoves, rfl⟩ := ih fun c hc => h c (by simp [hc])
    cases call with
    | move call =>
      have hcall : call.Connects chain := h (.move call) (by simp)
      exact ⟨call::moves, by simpa [hcall] using hmoves, rfl⟩
    | switch branch => exact (h (.switch branch) (by simp)).elim

theorem run_moves (moves : List ChainCall) : run (moves.map .move) = ChainCall.run moves :=
  List.foldl_map ..

end BranchCall

/-- `r` and `s` answer alike about the best chain of `chain`, which is `main` in
both, and give the same verdict on every block on top of it. -/
structure Agree (r s : Repository) (chain : Bytes) (main : List Block) : Prop where
  tip : s.tip chain = r.tip chain
  tail : s.tail chain = r.tail chain
  span : ∀ pk, s.findSpan chain pk = r.findSpan chain pk
  links : ∀ b ∈ main, s.findLinks b.hash = r.findLinks b.hash
  account : ∀ pk, s.account chain pk = r.account chain pk
  effectivePower : ∀ pk, s.effectivePower chain pk = r.effectivePower chain pk
  stateArray : ∀ pks, s.stateArray chain pks = r.stateArray chain pks
  verdict : ∀ tip ∈ main.getLast?, ∀ b, b.parent = tip.hash → validateBlock s b = validateBlock r b

namespace Repository.Keeps

variable {K : Registry} {A B : Book} {r s : Repository}

theorem agree (hA : A.Sound K) (hr : r.Keeps A) (hB : B.Sound K) (hs : s.Keeps B) {c : Bytes}
    (hmain : B.main c = A.main c) : Agree r s c (A.main c) := by
  have haccount : s.account c = r.account c := by
    funext pk
    rw [hs.account_eq hB, hr.account_eq hA, hmain]
  exact {
    tip := by rw [hs.tip_eq hB, hr.tip_eq hA, hmain]
    tail := by rw [hs.tail_eq hB, hr.tail_eq hA, hmain]
    span := fun pk => load_congr (hr.value_onMain hs hmain (k := .span c pk) rfl) _
    links := fun b hb => load_congr (hr.value_onMain hs hmain (List.mem_map_of_mem hb)) _
    account := congrFun haccount
    effectivePower := fun pk => by
      rw [hs.effectivePower_eq hB, hr.effectivePower_eq hA, hmain]
    stateArray := fun pks => by rw [stateArray, stateArray, haccount]
    verdict := fun tip htip b hb => validateBlock_eq_of_onTip hA hr hB hs hmain htip hb }

end Repository.Keeps

theorem ChainCall.value_of_connects {chain : Bytes} {calls calls' : List ChainCall}
    (hr : (run calls).Keeps (book calls)) (hs : (run calls').Keeps (book calls'))
    (h : ∀ call ∈ calls, call.Connects chain) (h' : ∀ call ∈ calls', call.Connects chain)
    (hmain : (book calls').main chain = (book calls).main chain) (k : Key) :
    (run calls').value k = (run calls).value k := by
  obtain ⟨hplain, hothers⟩ := Book.plain_book h
  obtain ⟨hplain', hothers'⟩ := Book.plain_book h'
  have hbook : book calls' = book calls := by
    apply hplain.eq hplain'
    funext c
    by_cases hc : c = chain
    · rw [hc, hmain]
    · rw [hothers c hc, hothers' c hc]
  rw [hbook] at hs
  exact hr.value_eq hs k

theorem Book.Sound.main_book {K : Registry} {A : Book} (hA : A.Sound K) (c : Bytes) :
    (ChainCall.run ((A.main c).map .connectTip)).Keeps
        (ChainCall.book ((A.main c).map .connectTip)) ∧
      (ChainCall.book ((A.main c).map .connectTip)).main c = A.main c := by
  have hstored := Branch.map_stored_of_known (hA.known c)
  have hknown : ∀ b ∈ A.main c, K.known b.stored := fun b hb =>
    (K.stored b (hA.known c b hb)).symm ▸ hA.known c b hb
  have hcalls : ∀ call ∈ (A.main c).map ChainCall.connectTip, ∀ b, call.block? = some b →
      K.known b.stored := by
    intro call hcall b hb
    obtain ⟨a, ha, rfl⟩ := List.mem_map.1 hcall
    cases hb
    exact hknown _ ha
  obtain ⟨hB, hs⟩ := ChainCall.run_keeps _ hcalls
  obtain ⟨G, hG, hgrown, hmain⟩ :=
    Branch.grows_of_linked hknown (hA.chain c) (hstored.symm ▸ hA.linked c)
  have hrun : Branch.grown (A.main c) = ChainCall.run ((A.main c).map .connectTip) := by
    rw [ChainCall.run, List.foldl_map]
    rfl
  rw [hrun] at hgrown
  refine ⟨hs, ?_⟩
  rw [(hgrown.spine hG c).unique (hs.spine hB c), hmain, hstored]

/-- Two histories that come to one best chain agree on it. A history that only
connects blocks of this chain, above its tip and below its tail, leaves the
records that extending the tip alone leaves. -/
theorem BranchCall.run_converges {calls₁ calls₂ : List BranchCall} {chain : Bytes}
    {main : List Block} (h : Admissible (calls₁.flatMap blocks ++ calls₂.flatMap blocks))
    (h₁ : Spine (run calls₁) chain main) (h₂ : Spine (run calls₂) chain main) :
    Agree (run calls₁) (run calls₂) chain main ∧
      ((∀ call ∈ calls₁, call.Connects chain) →
        ∀ k, (run calls₁).value k = (ChainCall.run (main.map .connectTip)).value k) := by
  have hknown : ∀ b ∈ calls₁.flatMap blocks ++ calls₂.flatMap blocks,
      h.registry.known b.stored := fun b hb => ⟨b, hb, rfl⟩
  obtain ⟨A, hA, hr⟩ := run_keeps fun b hb => hknown b (List.mem_append_left _ hb)
  obtain ⟨B, hB, hs⟩ := run_keeps fun b hb => hknown b (List.mem_append_right _ hb)
  obtain rfl : A.main chain = main := h₁.unique (hr.spine hA chain)
  refine ⟨hr.agree hA hB hs (h₂.unique (hs.spine hB chain)), fun hconnects => ?_⟩
  obtain ⟨moves, hmoves, rfl⟩ := exists_moves hconnects
  rw [run_moves] at hr ⊢
  have hcalls : ∀ call ∈ moves, ∀ b, call.block? = some b → h.registry.known b.stored := by
    intro call hcall b hb
    apply hknown b
    simp only [List.mem_append, List.mem_flatMap, List.mem_map]
    exact .inl ⟨.move call, ⟨call, hcall, rfl⟩, by simp [blocks, hb]⟩
  obtain ⟨hA', hr'⟩ := ChainCall.run_keeps moves hcalls
  obtain ⟨hgrown, hmain⟩ := hA.main_book chain
  refine ChainCall.value_of_connects hgrown hr' ?_ hmoves ?_
  · rintro call hcall
    obtain ⟨b, hb, rfl⟩ := List.mem_map.1 hcall
    exact hA.chain chain b hb
  · rw [hmain, (hr.spine hA chain).unique (hr'.spine hA' chain)]

end

section

attribute [local instance] checksum

def backfillCalls : List ChainCall := [.connectTip secondBlock, .connectTail firstBlock]

theorem admissible_backfillCalls : Admissible (backfillCalls.filterMap ChainCall.block?) :=
  admissible_pair.mono (by simp [backfillCalls, ChainCall.block?])

theorem BranchCall.run_converges_pair :
    Admissible ((backfillCalls.map BranchCall.move).flatMap blocks ++
      (pairCalls.map BranchCall.move).flatMap blocks) ∧
    Spine (run (backfillCalls.map .move)) [0x61] [firstBlock.stored, secondBlock.stored] ∧
    Spine (run (pairCalls.map .move)) [0x61] [firstBlock.stored, secondBlock.stored] ∧
    (∀ call ∈ backfillCalls.map BranchCall.move, call.Connects [0x61]) ∧
    Agree (run (backfillCalls.map .move)) (run (pairCalls.map .move)) [0x61]
      [firstBlock.stored, secondBlock.stored] ∧
    ∀ k, (run (backfillCalls.map .move)).value k =
      (ChainCall.run [.connectTip firstBlock.stored, .connectTip secondBlock.stored]).value k := by
  have hadmissible : Admissible ((backfillCalls.map BranchCall.move).flatMap blocks ++
      (pairCalls.map BranchCall.move).flatMap blocks) :=
    admissible_pair.mono (by simp [backfillCalls, pairCalls, blocks, ChainCall.block?])
  have h₁ : Spine (run (backfillCalls.map .move)) [0x61]
      [firstBlock.stored, secondBlock.stored] := by
    have hmain : (ChainCall.book backfillCalls).main [0x61] =
        [firstBlock.stored, secondBlock.stored] := by decide +kernel
    rw [run_moves, ← hmain]
    exact ChainCall.spine_book admissible_backfillCalls [0x61]
  have h₂ : Spine (run (pairCalls.map .move)) [0x61]
      [firstBlock.stored, secondBlock.stored] := by
    rw [run_moves]
    exact spine_pairCalls
  have hconnects : ∀ call ∈ backfillCalls.map BranchCall.move, call.Connects [0x61] := by
    simp [backfillCalls, Connects, ChainCall.Connects, firstBlock, secondBlock]
  obtain ⟨hagree, hsame⟩ := run_converges hadmissible h₁ h₂
  exact ⟨hadmissible, h₁, h₂, hconnects, hagree, hsame hconnects⟩

end

end ChainState
