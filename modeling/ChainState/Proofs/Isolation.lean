import ChainState.Proofs.Convergence
import ChainState.Proofs.Keys

/-!
# Chains do not meet

A call that concerns one chain leaves the records of every other chain as they
were, and the answers that are read from them. Blocks and links are kept by
their hashes alone, for all chains together. But what is listed under a chain
id, on its best chain or beside it, belongs to that chain.
-/

set_option autoImplicit false

namespace ChainState

section

variable [Crypto]

namespace Book

variable {A B C : Book} {a : Bytes}

structure Beside (a : Bytes) (A B : Book) : Prop where
  main : ∀ c, c ≠ a → B.main c = A.main c
  fork : ∀ f, f.chain ≠ a → (B.fork f ↔ A.fork f)

namespace Beside

theorem refl (a : Bytes) (A : Book) : Beside a A A := ⟨fun _ _ => rfl, fun _ _ => Iff.rfl⟩

theorem trans (h : Beside a A B) (h' : Beside a B C) : Beside a A C where
  main c hc := (h'.main c hc).trans (h.main c hc)
  fork f hf := (h'.fork f hf).trans (h.fork f hf)

theorem ite {p : Prop} [Decidable p] (h : Beside a A B) : Beside a A (if p then B else A) := by
  split
  · exact h
  · exact refl a A

theorem holds (h : Beside a A B) {b : Block} (hb : b.chain ≠ a) : B.Holds b ↔ A.Holds b := by
  rw [Holds, Holds, h.main _ hb, h.fork b hb]

end Beside

theorem Gains.beside {b : Block} (g : A.Gains B b) : Beside b.chain A B where
  main := g.others
  fork f hf := (g.fork f).trans (and_iff_left fun e => hf (e ▸ rfl))

theorem beside_popTip (A : Book) (b : Block) : Beside b.chain A (A.popTip b) where
  main c hc := by simp [hc]
  fork f hf := or_iff_left fun e => hf (e ▸ rfl)

theorem beside_popTail (A : Book) (b : Block) : Beside b.chain A (A.popTail b) where
  main c hc := by simp [hc]
  fork f hf := and_iff_left fun h => hf h.1

theorem beside_addFork (A : Book) (b : Block) : Beside b.chain A (A.addFork b) where
  main c _ := by simp
  fork f hf := or_iff_left fun h => hf (h.1 ▸ rfl)

theorem beside_dropForks (A : Book) {gone : Block → Prop} (h : ∀ f, gone f → f.chain = a) :
    Beside a A (A.dropForks gone) where
  main _ _ := rfl
  fork f hf := and_iff_left fun hgone => hf (h f hgone)

end Book

/-- The block that the call is about is one of `chain`. -/
def ChainCall.Concerns (r : Repository) (chain : Bytes) : ChainCall → Prop
  | .connectTip b | .connectTail b | .rollBack b | .expire b | .saveFork b => b.chain = chain
  | .deleteBlock hash => ∀ b, r.findBlock hash = .ok (some b) → b.chain = chain
  | .pruneOrphans c _ _ => c = chain

def BranchCall.Concerns (r : Repository) (chain : Bytes) : BranchCall → Prop
  | .move call => call.Concerns r chain
  | .switch branch => ∀ first ∈ branch.head?, first.chain = chain

namespace Book

variable {K : Registry} {A : Book} {a : Bytes}

theorem beside_expire (A : Book) (b : Block) : Beside b.chain A (A.expire b) := by
  apply (beside_popTail A b).trans
  apply beside_dropForks
  rintro x ⟨f, hf, hdescends⟩
  exact hdescends.chain_eq hf.1.2

theorem beside_after {call : ChainCall} {r : Repository} (hA : A.Sound K) (hr : r.Keeps A)
    (h : call.Concerns r a) : Beside a A (A.after call) := by
  cases call with
  | connectTip b =>
    obtain rfl : b.stored.chain = a := b.chain_stored.trans h
    exact (gains_pushTip A b.stored).beside.ite
  | connectTail b =>
    obtain rfl : b.stored.chain = a := b.chain_stored.trans h
    exact (gains_pushTail A b.stored).beside.ite
  | rollBack b =>
    obtain rfl : b.stored.chain = a := b.chain_stored.trans h
    exact (beside_popTip A b.stored).ite
  | expire b =>
    obtain rfl : b.stored.chain = a := b.chain_stored.trans h
    exact (beside_expire A b.stored).ite
  | saveFork b =>
    obtain rfl : b.stored.chain = a := b.chain_stored.trans h
    exact beside_addFork A b.stored
  | deleteBlock hash =>
    apply beside_dropForks
    rintro f ⟨b, hb, rfl, hdescends⟩
    have hchain : b.chain = a := h b (hr.findBlock_of_holds hA (.inr hb))
    rw [← hchain]
    exact hdescends.chain_eq rfl
  | pruneOrphans chain height removed =>
    obtain rfl : chain = a := h
    apply beside_dropForks
    exact fun f hf => hf.isFork.2

theorem beside_rebased (hA : A.Sound K) {branch lo hi : List Block} {fork : Block}
    (h : Branch.Replaces A.main branch a lo fork hi) :
    Beside a A (Branch.rebased A branch a lo fork hi) where
  main c hc := by rw [Branch.main_rebased h.onChain, if_neg hc]
  fork f hf := by
    have hcut : f ∉ hi := by
      intro hmem
      apply hf
      apply hA.chain a f
      rw [h.split]
      simp [hmem]
    have hbranch : f ∉ branch.map Block.stored := by
      intro hmem
      obtain ⟨b, hb, rfl⟩ := List.mem_map.1 hmem
      exact hf (b.chain_stored.trans (h.onChain b hb))
    rw [Branch.fork_rebased]
    simp [hcut, hbranch]

end Book

theorem BranchCall.Makes.beside {K : Registry} {A B : Book} {call : BranchCall} {a : Bytes}
    {r : Repository} (h : Makes K A call B) (hA : A.Sound K) (hr : r.Keeps A)
    (hcall : call.Concerns r a) : A.Beside a B := by
  cases h with
  | same => exact .refl a A
  | moved call => exact Book.beside_after hA hr hcall
  | @switched branch lo hi fork c hknown hreplaces =>
    obtain ⟨first, hfirst⟩ : ∃ first, branch.head? = some first :=
      ⟨_, List.head?_eq_some_head hreplaces.nonempty⟩
    obtain rfl : c = a :=
      (hreplaces.onChain first (List.mem_of_mem_head? hfirst)).symm.trans (hcall first hfirst)
    exact Book.beside_rebased hA hreplaces

/-- The record under the key is one of `chain`. -/
def Key.BelongsTo (r : Repository) (chain : Bytes) : Key → Prop
  | .tip c | .tail c | .span c _ | .height c _ => c = chain
  | .block hash | .links hash => ∃ b, r.findBlock hash = .ok (some b) ∧ b.chain = chain
  | .chains => False

/-- A record, found by the bytes of its key. -/
def Repository.Stores (r : Repository) (key record : Bytes) : Prop :=
  ∃ k : Key, k.encode = key ∧ r.value k = some record

/-- Nothing about `chain` differs between `r` and `s`. -/
structure Repository.SameOn (chain : Bytes) (r s : Repository) : Prop where
  records : ∀ k : Key, k.BelongsTo r chain →
    ∀ record, s.Stores k.encode record ↔ r.Stores k.encode record
  stored : ∀ hash b, b.chain = chain →
    (s.findBlock hash = .ok (some b) ↔ r.findBlock hash = .ok (some b))
  tip : s.tip chain = r.tip chain
  tail : s.tail chain = r.tail chain
  mainHashAt : ∀ n, s.mainHashAt chain n = r.mainHashAt chain n
  mainBlockAt : ∀ n, s.mainBlockAt chain n = r.mainBlockAt chain n
  account : ∀ pk, s.account chain pk = r.account chain pk
  effectivePower : ∀ pk, s.effectivePower chain pk = r.effectivePower chain pk

theorem Book.Sound.chain_of_mem_nodes {K : Registry} {A : Book} (hA : A.Sound K) {b : Block}
    {c : Bytes} (hb : K.known b) (h : b.hash ∈ A.nodes c) : b.chain = c :=
  hA.chain c b ((hA.mem_nodes hb).1 h)

namespace Repository

theorem stores_encode {r : Repository} {k : Key} {record : Bytes} :
    r.Stores k.encode record ↔ r.value k = some record := by
  constructor
  · rintro ⟨k', hk, hv⟩
    rwa [← Key.encode_inj hk]
  · exact fun hv => ⟨k, rfl, hv⟩

namespace Keeps

variable {K : Registry} {A B : Book} {r s : Repository} {a c : Bytes}

variable (hA : A.Sound K) (hr : r.Keeps A) (hB : B.Sound K) (hs : s.Keeps B)
  (h : A.Beside a B) (hc : c ≠ a)

include hA hr hB hs h hc

theorem value_of_beside {k : Key} (hk : k.BelongsTo r c) : s.value k = r.value k := by
  have hm : B.main c = A.main c := h.main c hc
  cases k with
  | tip d | tail d | span d pk => exact hr.value_onMain hs hm hk
  | height d n =>
    obtain rfl : d = c := hk
    exact hr.value_height hs hm fun f hf _ => h.fork f (hf.symm ▸ hc)
  | block x =>
    obtain ⟨b, hb, rfl⟩ := hk
    obtain ⟨hheld, rfl⟩ := (hr.findBlock_eq_some hA).1 hb
    exact hr.value_block_of_known hA hB hs (hA.holds_known hheld) (h.holds hc)
  | links x =>
    obtain ⟨b, hb, rfl⟩ := hk
    obtain ⟨hheld, rfl⟩ := (hr.findBlock_eq_some hA).1 hb
    have hknown := hA.holds_known hheld
    by_cases hmain : b.hash ∈ A.nodes b.chain
    · exact hr.value_onMain hs hm hmain
    · have hoff : ∀ d, b.hash ∉ A.nodes d := fun d hd =>
        hmain (hA.chain_of_mem_nodes hknown hd ▸ hd)
      have hoff' : ∀ d, b.hash ∉ B.nodes d := fun d hd => by
        obtain rfl := hB.chain_of_mem_nodes hknown hd
        rw [Book.nodes_congr hm] at hd
        exact hmain hd
      rw [hr.bare _ hoff, hs.bare _ hoff']
  | chains => exact hk.elim

theorem sameOn : SameOn c r s := by
  have hm : B.main c = A.main c := h.main c hc
  have hat : B.mainAt c = A.mainAt c := by
    funext n
    rw [Book.mainAt, hm, Book.mainAt]
  exact {
    records := fun k hk record => by
      rw [stores_encode, stores_encode, hr.value_of_beside hA hB hs h hc hk]
    stored := fun x b hb => by
      rw [hs.findBlock_eq_some hB, hr.findBlock_eq_some hA, h.holds (hb.symm ▸ hc)]
    tip := by rw [hs.tip_eq hB, hr.tip_eq hA, hm]
    tail := by rw [hs.tail_eq hB, hr.tail_eq hA, hm]
    mainHashAt := fun n => by rw [hs.mainHashAt_eq hB, hr.mainHashAt_eq hA, hat]
    mainBlockAt := fun n => by rw [hs.mainBlockAt_eq hB, hr.mainBlockAt_eq hA, hat]
    account := fun pk => by rw [hs.account_eq hB, hr.account_eq hA, hm]
    effectivePower := fun pk => by rw [hs.effectivePower_eq hB, hr.effectivePower_eq hA, hm] }

end Keeps

end Repository

/-- After any history, a call that concerns one chain changes nothing about any
other. -/
theorem BranchCall.run_isolates {calls : List BranchCall} {call : BranchCall} {a c : Bytes}
    (h : Admissible ((calls ++ [call]).flatMap blocks)) (hcall : call.Concerns (run calls) a)
    (hc : c ≠ a) : (run calls).SameOn c (call.perform (run calls)) := by
  have hknown : ∀ b ∈ calls.flatMap blocks ++ call.blocks, h.registry.known b.stored :=
    fun b hb => ⟨b, by simpa using hb, rfl⟩
  obtain ⟨A, hA, hr⟩ := run_keeps fun b hb => hknown b (List.mem_append_left _ hb)
  obtain ⟨B, hB, hs, hmakes⟩ :=
    perform_makes hA hr call fun b hb => hknown b (List.mem_append_right _ hb)
  exact hr.sameOn hA hB hs (hmakes.beside hA hr hcall) hc

end

section

attribute [local instance] checksum

def foreignBlock : Block := .hashed { firstBlock.toContent with chain := [0x62] }

def twoChains : List BranchCall :=
  [.move (.connectTip firstBlock), .move (.connectTip foreignBlock),
    .move (.connectTip secondBlock)]

theorem BranchCall.run_isolates_foreign :
    Admissible ((twoChains ++ [move (.rollBack secondBlock)]).flatMap blocks) ∧
    Concerns (run twoChains) [0x61] (.move (.rollBack secondBlock)) ∧
    ([0x62] : Bytes) ≠ [0x61] ∧
    (run twoChains).SameOn [0x62] (perform (run twoChains) (.move (.rollBack secondBlock))) := by
  have hadmissible :
      Admissible ((twoChains ++ [move (.rollBack secondBlock)]).flatMap blocks) := by
    decide +kernel
  have hchains : ([0x62] : Bytes) ≠ [0x61] := by decide
  exact ⟨hadmissible, rfl, hchains, run_isolates hadmissible rfl hchains⟩

end

end ChainState
