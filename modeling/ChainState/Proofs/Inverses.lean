import ChainState.Proofs.BestChain
import ChainState.Proofs.Values

/-!
# Steps that undo each other

At either end of a best chain, the step by which a block joins and the step by
which it leaves undo each other. They do so in the book, and the book
determines every record.
-/

set_option autoImplicit false

namespace ChainState

open Transition

section

variable [Crypto]

namespace Book

theorem popTip_pushTip (A : Book) (b : Block) : (A.pushTip b).popTip b =
    { A with fork := fun f => A.fork f ∨ f = b, chains := A.chains.insert b.chain } := by
  refine Book.ext (funext fun c => ?_) (funext fun f => propext ?_) rfl
  · by_cases hc : c = b.chain <;> simp [hc]
  · by_cases hf : f = b <;> simp [popTip, pushTip, hf]

variable {K : Registry} {A : Book} {b : Block}

theorem takesTip_popTip (hA : A.Sound K) (h : (A.main b.chain).getLast? = some b) :
    (A.popTip b).TakesTip b := by
  obtain ⟨pre, hm⟩ := List.getLast?_eq_some_iff.1 h
  intro t ht
  rw [main_popTip, if_pos rfl, hm, List.dropLast_concat] at ht
  exact hA.under_of_split hm t ht

theorem pushTip_popTip (hA : A.Sound K) (hE : A.Enlists)
    (h : (A.main b.chain).getLast? = some b) : (A.popTip b).pushTip b = A := by
  have hmem := List.mem_of_getLast? h
  have hoff : ¬ A.fork b := fun hf => hA.fork_off b hf hmem
  refine Book.ext (funext fun c => ?_) (funext fun f => propext ?_) ?_
  · by_cases hc : c = b.chain
    · subst hc
      obtain ⟨pre, hm⟩ := List.getLast?_eq_some_iff.1 h
      simp [hm]
    · simp [hc]
  · by_cases hf : f = b
    · simp [popTip, pushTip, hf, hoff]
    · simp [popTip, pushTip, hf]
  · exact SortedSet.insert_of_contains (hE _ (List.ne_nil_of_mem hmem))

theorem expire_of_alone (h : ∀ f, ¬ A.rivals b f) :
    A.expire b = { A with main := Function.update A.main b.chain (A.main b.chain).tail } := by
  rw [expire, dropForks_of_none]
  · refine Book.ext rfl (funext fun f => propext ?_) rfl
    exact and_iff_left_of_imp fun hf hn => h f ⟨⟨hf, hn.1⟩, hn.2⟩
  · rintro x ⟨f, hf, -⟩
    exact h f hf

theorem takesTail_expire (hA : A.Sound K) (h : (A.main b.chain).head? = some b)
    (hlen : 2 ≤ (A.main b.chain).length) : (A.expire b).TakesTail b := by
  have hlinked := hA.linked b.chain
  obtain ⟨rest, hm⟩ := List.head?_eq_some_iff.1 h
  rw [hm] at hlinked hlen
  cases rest with
  | nil => simp at hlen
  | cons t rest =>
    refine ⟨t, ?_, (List.isChain_cons_cons.1 hlinked).1⟩
    change t ∈ ((A.popTail b).main b.chain).head?
    simp [hm]

theorem pushTail_expire (hA : A.Sound K) (h : (A.main b.chain).head? = some b)
    (halone : ∀ f, ¬ A.rivals b f) : (A.expire b).pushTail b = A := by
  have hoff : ¬ A.fork b := fun hf => hA.fork_off b hf (List.mem_of_mem_head? h)
  rw [expire_of_alone halone]
  refine Book.ext (funext fun c => ?_) (funext fun f => propext ?_) rfl
  · by_cases hc : c = b.chain
    · subst hc
      obtain ⟨rest, hm⟩ := List.head?_eq_some_iff.1 h
      simp [hm]
    · simp [hc]
  · exact and_iff_left_of_imp fun hf e => hoff (e ▸ hf)

theorem expire_pushTail (halone : ∀ f, ¬ A.rivals b f) : (A.pushTail b).expire b = A := by
  have hpushed : ∀ f, ¬ (A.pushTail b).rivals b f := fun f hf =>
    halone f ⟨⟨hf.1.1.1, hf.1.2⟩, hf.2⟩
  rw [expire_of_alone hpushed]
  refine Book.ext (funext fun c => ?_) (funext fun f => propext ?_) rfl
  · by_cases hc : c = b.chain
    · simp [hc]
    · simp [hc]
  · refine and_iff_left_of_imp fun hf e => halone f ⟨⟨hf, ?_⟩, ?_⟩
    · rw [e]
    · rw [e]

end Book

/-- `b` lies beside the best chain in `s`. Everything else is as in `r`. -/
structure SetAside (r s : Repository) (b : Block) : Prop where
  frame : ∀ k, k ≠ .block b.hash → k ≠ .height b.chain b.height → k ≠ .chains →
    s.value k = r.value k
  stored : s.value (.block b.hash) = some b.encode
  listed : ∃ o, r.findHeight b.chain b.height = .ok o ∧ (o.getD .empty).main = none ∧
    s.findHeight b.chain b.height = .ok (some ⟨none, (o.getD .empty).forks.insert b.hash⟩)
  chains : ∃ chains, r.chains = .ok chains ∧ s.chains = .ok (chains.insert b.chain)

theorem Repository.Keeps.setAside {K : Registry} {A B : Book} {r s : Repository}
    {b : Block} (hA : A.Sound K) (hr : r.Keeps A) (hB : B.Sound K) (hs : s.Keeps B)
    (hmain : B.main = A.main) (hfork : ∀ f, B.fork f ↔ A.fork f ∨ f = b.stored)
    (hchains : B.chains = A.chains.insert b.chain)
    (hfree : ∀ x ∈ A.main b.chain, x.height ≠ b.height) : SetAside r s b where
  frame k hblock hheight hset := by
    cases k with
    | block x =>
      refine hr.value_block hs fun a ha => ?_
      have hne : a ≠ b.stored := by
        rintro rfl
        exact hblock (by rw [← ha, Block.hash_stored])
      rw [Book.Holds, Book.Holds, hmain, hfork, or_iff_left hne]
    | height c n =>
      refine hr.value_height hs (congrFun hmain c) fun f hc hn => ?_
      have hne : f ≠ b.stored := by
        rintro rfl
        exact hheight (by rw [← hc, ← hn, Block.chain_stored, Block.height_stored])
      rw [hfork, or_iff_left hne]
    | chains => exact absurd rfl hset
    | links x => exact hr.value_links hs hmain x
    | tip c | tail c | span c pk => exact hr.value_onMain hs (congrFun hmain c) rfl
  stored := by
    refine (hs.block _ _).2 ⟨b.stored, .inr ((hfork _).2 (.inr rfl)), ?_, ?_⟩
    · exact b.hash_stored
    · exact b.encode_stored
  listed := by
    obtain ⟨o, ho, hl⟩ := hr.findHeight_eq b.chain b.height
    have hnone : (o.getD .empty).main = none := hl.main_eq_none hfree
    obtain ⟨record, hrecord, hl', -⟩ := hs.fork_listed ((hfork b.stored).2 (.inr rfl))
    rw [Block.chain_stored, Block.height_stored] at hrecord hl'
    have hlists : B.Lists b.chain b.height ⟨none, (o.getD .empty).forks.insert b.hash⟩ := by
      refine ⟨fun x => ?_, fun x => ?_⟩
      · rw [hmain, ← hl.main, hnone]
      · have hl : A.Lists b.stored.chain b.stored.height (o.getD .empty) := by simpa using hl
        simpa using hl.contains_insert hfork x
    obtain rfl := hlists.unique hl' rfl fun _ _ _ => Iff.rfl
    exact ⟨o, ho, hnone, hrecord⟩
  chains := ⟨A.chains, chains_of_written hr.chains hA.chains,
    hchains ▸ chains_of_written hs.chains hB.chains⟩

theorem Repository.Keeps.alone {A : Book} {r : Repository} {b : Block} (hr : r.Keeps A)
    (h : ∀ record, r.findHeight b.chain b.height = .ok (some record) →
      record.forks.elements = []) (f : Block) : ¬ A.rivals b.stored f := by
  rintro ⟨⟨hf, hc⟩, hn⟩
  obtain ⟨record, hrecord, -, hfork⟩ := hr.fork_listed hf
  rw [hc, hn, Block.chain_stored, Block.height_stored] at hrecord
  rw [← SortedSet.mem_elements, h record hrecord] at hfork
  cases hfork

theorem Repository.Keeps.findHeight_none {A : Book} {r : Repository} {c : Bytes}
    {n : Int64} (hr : r.Keeps A) (h : A.Lists c n .empty) : r.findHeight c n = .ok none := by
  obtain ⟨record, hl, hv⟩ := hr.height c n
  obtain rfl := h.unique hl rfl fun _ _ _ => Iff.rfl
  exact load_none hv

namespace Transition

variable {K : Registry} {A : Book} {r : Repository} {b : Block}

theorem takesTip_of_ends (hA : A.Sound K) (hr : r.Keeps A) {post : Unit → Repository → Prop}
    (h : Ends (connectTip b) r post) : A.TakesTip b := by
  by_contra hn
  obtain ⟨fault, hf⟩ := refuses_connectTip hA hr hn
  exact hf.not_ends h

theorem takesTail_of_ends (hA : A.Sound K) (hr : r.Keeps A) {post : Unit → Repository → Prop}
    (h : Ends (connectTail b) r post) : A.TakesTail b := by
  by_contra hn
  obtain ⟨fault, hf⟩ := refuses_connectTail hA hr hn
  exact hf.not_ends h

theorem ends_back {B : Book} {t u : Transition Unit} (hr : r.Keeps A)
    (ht : Ends t r fun _ s => s.Keeps B)
    (hu : ∀ s : Repository, s.Keeps B → Ends u s fun _ s' => s'.Keeps A) :
    Ends (do t; u) r fun _ s => ∀ k, s.value k = r.value k :=
  ends_bind.2 (ht.mono fun _ s hs => (hu s hs).mono fun _ _ h => hr.value_eq h)

theorem ends_reconnectTip (hA : A.Sound K) (hE : A.Enlists) (hr : r.Keeps A)
    (hb : K.known b.stored) (h : (A.main b.chain).getLast? = some b.stored) :
    Ends (do rollBack b; connectTip b) r fun _ s => ∀ k, s.value k = r.value k := by
  have h' : (A.main b.stored.chain).getLast? = some b.stored := by simpa using h
  have htakes := Book.takesTip_stored.1 (Book.takesTip_popTip hA h')
  refine ends_back hr (ends_rollBack hA hr h) fun s hs => ?_
  have hends := ends_connectTip (Book.sound_popTip hA h') hs hb htakes
  rwa [Book.pushTip_popTip hA hE h'] at hends

theorem ends_reconnectTail (hA : A.Sound K) (hr : r.Keeps A) (hb : K.known b.stored)
    (h : (A.main b.chain).head? = some b.stored) (hlen : 2 ≤ (A.main b.chain).length)
    (halone : ∀ f, ¬ A.rivals b.stored f) :
    Ends (do expire b; connectTail b) r fun _ s => ∀ k, s.value k = r.value k := by
  have h' : (A.main b.stored.chain).head? = some b.stored := by simpa using h
  have hsound : (A.expire b.stored).Sound K :=
    Book.sound_dropForks (Book.sound_popTail hA h') _
  have htakes := Book.takesTail_stored.1 (Book.takesTail_expire hA h' (by simpa using hlen))
  refine ends_back hr (ends_expire hA hr h) fun s hs => ?_
  have hends := ends_connectTail hsound hs hb htakes
  rwa [Book.pushTail_expire hA h' halone] at hends

theorem ends_connectTail_expire (hA : A.Sound K) (hr : r.Keeps A) (hb : K.known b.stored)
    (h : A.TakesTail b) (halone : ∀ f, ¬ A.rivals b.stored f) :
    Ends (do connectTail b; expire b) r fun _ s => ∀ k, s.value k = r.value k := by
  have hsound := Book.sound_pushTail hA hb (Book.takesTail_stored.2 h)
  refine ends_back hr (ends_connectTail hA hr hb h) fun s hs => ?_
  have hends := ends_expire (b := b) hsound hs (by simp)
  rwa [Book.expire_pushTail halone] at hends

theorem ends_connectTip_rollBack (hA : A.Sound K) (hr : r.Keeps A) (hb : K.known b.stored)
    (h : A.TakesTip b) : Ends (do connectTip b; rollBack b) r fun _ s => SetAside r s b := by
  have hsound := Book.sound_pushTip hA hb (Book.takesTip_stored.2 h)
  have htip : ((A.pushTip b.stored).main b.stored.chain).getLast? = some b.stored := by simp
  have hpopped := Book.sound_popTip hsound htip
  refine ends_bind.2 ((ends_connectTip hA hr hb h).mono fun _ s hs => ?_)
  refine (ends_rollBack hsound hs (by simp)).mono fun _ t ht => ?_
  rw [Book.popTip_pushTip] at ht hpopped
  exact hr.setAside hA hpopped ht rfl (fun _ => Iff.rfl) (by simp) (h.free hA)

end Transition

/-- After any history, the tip is rolled back and connected again without a
trace. A block that is connected and rolled back leaves only itself, stored
beside the best chain, and its chain id. -/
theorem ChainCall.run_reconnects_tip {calls : List ChainCall} {b : Block}
    (h : Admissible (b::calls.filterMap block?)) :
    ((run calls).tipHash b.chain = .ok (some b.hash) →
      Ends (do Transition.rollBack b; Transition.connectTip b) (run calls) fun _ s =>
        ∀ k, s.value k = (run calls).value k) ∧
    (Ends (Transition.connectTip b) (run calls) (fun _ _ => True) →
      Ends (do Transition.connectTip b; Transition.rollBack b) (run calls) fun _ s =>
        SetAside (run calls) s b) := by
  obtain ⟨hA, hr, hb⟩ := keeps_beside h
  refine ⟨fun htip => ?_, fun haccepts => ?_⟩
  · rw [hr.tipHash_eq, Except.ok.injEq] at htip
    have hlast := (hash_eq_tip hA hb fun x hx => List.mem_of_getLast? hx).1 htip
    exact ends_reconnectTip hA (Book.enlists_book calls) hr hb hlast
  · exact ends_connectTip_rollBack hA hr hb (takesTip_of_ends hA hr haccepts)

end

section

attribute [local instance] checksum

theorem admissible_beside_pairCalls :
    Admissible (secondBlock::pairCalls.filterMap ChainCall.block?) :=
  admissible_pair.mono (by simp [pairCalls, ChainCall.block?])

theorem admissible_beside_first :
    Admissible (secondBlock::[ChainCall.connectTip firstBlock].filterMap ChainCall.block?) :=
  admissible_pair.mono (by simp [ChainCall.block?])

theorem ChainCall.run_reconnects_tip_pair :
    Admissible (secondBlock::pairCalls.filterMap block?) ∧
    Admissible (secondBlock::[connectTip firstBlock].filterMap block?) ∧
    (Ends (do Transition.rollBack secondBlock; Transition.connectTip secondBlock) (run pairCalls)
      fun _ s => ∀ k, s.value k = (run pairCalls).value k) ∧
    Ends (do Transition.connectTip secondBlock; Transition.rollBack secondBlock)
      (run [connectTip firstBlock]) fun _ s =>
        SetAside (run [connectTip firstBlock]) s secondBlock := by
  refine ⟨admissible_beside_pairCalls, admissible_beside_first, ?_, ?_⟩
  · obtain ⟨-, hr, -⟩ := keeps_beside admissible_beside_pairCalls
    apply (run_reconnects_tip admissible_beside_pairCalls).1
    have hlast : (book pairCalls).main secondBlock.chain =
        [firstBlock.stored, secondBlock.stored] := by decide +kernel
    rw [hr.tipHash_eq, hlast]
    simp
  · obtain ⟨hA, hr, hb⟩ := keeps_beside admissible_beside_first
    apply (run_reconnects_tip admissible_beside_first).2
    exact (ends_connectTip hA hr hb (by decide +kernel)).mono fun _ _ _ => trivial

end

section

variable [Crypto]

/-- After any history, a tail that is not the only block and has no fork beside
it expires and is connected again without a trace. So does a block that is
connected below the tail, at a height where nothing is listed. -/
theorem ChainCall.run_reconnects_tail {calls : List ChainCall} {b : Block}
    (h : Admissible (b::calls.filterMap block?)) :
    (∀ main, Spine (run calls) b.chain main → 2 ≤ main.length →
      (run calls).tailHash b.chain = .ok (some b.hash) →
      (∀ record, (run calls).findHeight b.chain b.height = .ok (some record) →
        record.forks.elements = []) →
      Ends (do Transition.expire b; Transition.connectTail b) (run calls) fun _ s =>
        ∀ k, s.value k = (run calls).value k) ∧
    (Ends (Transition.connectTail b) (run calls) (fun _ _ => True) →
      (run calls).findHeight b.chain b.height = .ok none →
      Ends (do Transition.connectTail b; Transition.expire b) (run calls) fun _ s =>
        ∀ k, s.value k = (run calls).value k) := by
  obtain ⟨hA, hr, hb⟩ := keeps_beside h
  refine ⟨fun main hmain hlen htail hforks => ?_, fun haccepts hnone => ?_⟩
  · obtain rfl := hmain.unique (hr.spine hA b.chain)
    rw [hr.tailHash_eq, Except.ok.injEq] at htail
    have hhead := (hash_eq_tip hA hb fun x hx => List.mem_of_mem_head? hx).1 htail
    exact ends_reconnectTail hA hr hb hhead hlen (hr.alone hforks)
  · refine ends_connectTail_expire hA hr hb (takesTail_of_ends hA hr haccepts) ?_
    apply hr.alone
    intro record hrecord
    rw [hnone] at hrecord
    cases hrecord

end

section

attribute [local instance] checksum

def risingCalls : List ChainCall := [.connectTip firstBlock, .connectTip secondBlock]

theorem admissible_risingCalls : Admissible (firstBlock::risingCalls.filterMap ChainCall.block?) :=
  admissible_pair.mono (by simp [risingCalls, ChainCall.block?])

theorem admissible_below_second :
    Admissible (firstBlock::[ChainCall.connectTip secondBlock].filterMap ChainCall.block?) :=
  admissible_pair.mono (by simp [ChainCall.block?])

theorem ChainCall.run_reconnects_tail_pair :
    Admissible (firstBlock::risingCalls.filterMap block?) ∧
    Admissible (firstBlock::[connectTip secondBlock].filterMap block?) ∧
    (Ends (do Transition.expire firstBlock; Transition.connectTail firstBlock) (run risingCalls)
      fun _ s => ∀ k, s.value k = (run risingCalls).value k) ∧
    Ends (do Transition.connectTail firstBlock; Transition.expire firstBlock)
      (run [connectTip secondBlock]) fun _ s =>
        ∀ k, s.value k = (run [connectTip secondBlock]).value k := by
  refine ⟨admissible_risingCalls, admissible_below_second, ?_, ?_⟩
  · obtain ⟨hA, hr, -⟩ := keeps_beside admissible_risingCalls
    have hmain : (book risingCalls).main firstBlock.chain =
        [firstBlock.stored, secondBlock.stored] := by decide +kernel
    have hconnects : ∀ call ∈ risingCalls, call.Connects firstBlock.chain := by
      simp [risingCalls, Connects, secondBlock]
    have hplain := (Book.plain_book hconnects).1
    apply (run_reconnects_tail admissible_risingCalls).1 _ (hr.spine hA _)
    · simp [hmain]
    · simp [hr.tailHash_eq, hmain]
    · intro record hq
      obtain ⟨o, ho, hl⟩ := hr.findHeight_eq firstBlock.chain firstBlock.height
      obtain rfl : o = some record := by simpa [hq] using ho.symm
      refine List.eq_nil_iff_forall_not_mem.2 fun x hx => ?_
      obtain ⟨f, hf, -⟩ := (hl.forks x).1 (SortedSet.mem_elements.1 hx)
      exact hplain.forkless f hf
  · obtain ⟨hA, hr, hb⟩ := keeps_beside admissible_below_second
    refine (run_reconnects_tail admissible_below_second).2 ?_ ?_
    · exact (ends_connectTail hA hr hb (by decide +kernel)).mono fun _ _ _ => trivial
    · have hmain : (book [connectTip secondBlock]).main firstBlock.chain =
          [secondBlock.stored] := by decide +kernel
      have hconnects : ∀ call ∈ [connectTip secondBlock], call.Connects secondBlock.chain := by
        simp [Connects]
      have hplain := (Book.plain_book hconnects).1
      refine hr.findHeight_none ⟨fun x => ?_, fun x => ?_⟩
      · have hheight : secondBlock.height ≠ firstBlock.height := by decide
        simp [hmain, HeightRecord.empty, hheight]
      · simp [hplain.forkless, HeightRecord.empty]

end

end ChainState
