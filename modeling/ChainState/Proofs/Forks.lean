import ChainState.Proofs.Connect
import ChainState.Proofs.Prune

/-!
# Blocks beside the best chain

A fork is stored in the height record of its height, deleted together with its
descendants, and pruned. The best chain is not touched, and a block on it is
not deleted.
-/

set_option autoImplicit false

namespace ChainState

namespace HeightRecord

theorem written_of_main {record : HeightRecord} {x : Hash} (h : record.main = some x) :
    record.written = some record.encode := by
  simp [written, isEmpty, h]

theorem written_of_fork {record : HeightRecord} {x : Hash}
    (h : record.forks.contains x = true) : record.written = some record.encode := by
  have : record.forks.isEmpty = false := by
    rw [Bool.eq_false_iff]
    intro he
    simp [SortedSet.isEmpty_iff.1 he x] at h
  simp [written, isEmpty, this]

theorem written_addFork (record : HeightRecord) (hash : Hash) :
    (record.addFork hash).written = some (record.addFork hash).encode := by
  unfold addFork
  split
  · next h => exact written_of_main h
  · exact written_of_fork (show SortedSet.contains _ hash = true by simp)

theorem written_demote {record : HeightRecord} {hash : Hash} (h : record.main = some hash) :
    (record.demote hash).written = some (record.demote hash).encode := by
  rw [demote, if_pos h]
  exact written_of_fork (show SortedSet.contains _ hash = true by simp)

end HeightRecord

variable [Crypto]

namespace Book

def addFork (A : Book) (b : Block) : Book :=
  { A with fork := fun f => A.fork f ∨ f = b ∧ b ∉ A.main b.chain }

def dropForks (A : Book) (gone : Block → Prop) : Book :=
  { A with fork := fun f => A.fork f ∧ ¬ gone f }

def forksOf (A : Book) (chain : Bytes) (f : Block) : Prop := A.fork f ∧ f.chain = chain

@[simp] theorem main_addFork (A : Book) (b : Block) : (A.addFork b).main = A.main := rfl

@[simp] theorem chains_addFork (A : Book) (b : Block) : (A.addFork b).chains = A.chains := rfl

theorem dropForks_dropForks (A : Book) (gone gone' : Block → Prop) :
    (A.dropForks gone).dropForks gone' = A.dropForks fun f => gone f ∨ gone' f := by
  simp [dropForks, not_or, and_assoc]

theorem dropForks_of_none (A : Book) {gone : Block → Prop} (h : ∀ f, ¬ gone f) :
    A.dropForks gone = A := by
  simp [dropForks, h]

theorem forksOf_dropForks (A : Book) (gone : Block → Prop) (c : Bytes) :
    (A.dropForks gone).forksOf c = fun f => A.forksOf c f ∧ ¬ gone f := by
  funext f
  simp [forksOf, dropForks, and_right_comm]

theorem holds_dropForks (A : Book) {gone : Block → Prop} {x : Block}
    (hspared : x ∈ A.main x.chain → ¬ gone x) :
    (A.dropForks gone).Holds x ↔ A.Holds x ∧ ¬ gone x := by
  simp only [Holds, dropForks]
  tauto

theorem holds_addFork (A : Book) (b x : Block) :
    (A.addFork b).Holds x ↔ x = b ∨ A.Holds x := by
  by_cases hx : x = b
  · subst hx
    simp only [Holds, addFork]
    tauto
  · simp [Holds, addFork, hx]

end Book

theorem Descends.chain_eq {A : Book} {c : Bytes} {b f : Block} (h : Descends (A.forksOf c) b f)
    (hb : b.chain = c) : f.chain = c := by
  cases h with
  | self => exact hb
  | child _ hf _ => exact hf.2

namespace Book

def mainHashes (A : Book) (chain : Bytes) (n : Int64) : Option Hash :=
  (A.mainAt chain n).map Block.hash

variable {K : Registry} {A : Book} {b : Block}

theorem sound_dropForks (hA : A.Sound K) (gone : Block → Prop) : (A.dropForks gone).Sound K where
  chain := hA.chain
  known := hA.known
  linked := hA.linked
  fork_known f hf := hA.fork_known f hf.1
  fork_off f hf := hA.fork_off f hf.1
  chains := hA.chains

theorem sound_addFork (hA : A.Sound K) (hb : K.known b) : (A.addFork b).Sound K where
  chain := hA.chain
  known := hA.known
  linked := hA.linked
  fork_known f hf := by
    rcases hf with hf | ⟨rfl, -⟩
    · exact hA.fork_known f hf
    · exact hb
  fork_off f hf := by
    rcases hf with hf | ⟨rfl, hoff⟩
    · exact hA.fork_off f hf
    · exact hoff
  chains := hA.chains

theorem lists_addFork (hA : A.Sound K) (hb : K.known b) {c : Bytes} {n : Int64}
    {record : HeightRecord} (h : A.Lists c n record) :
    (A.addFork b).Lists c n
      (if b.chain = c ∧ b.height = n then record.addFork b.hash else record) := by
  split
  · next hcn =>
    obtain ⟨rfl, rfl⟩ := hcn
    have hmain : record.main = some b.hash ↔ b ∈ A.main b.chain := by
      rw [h.main]
      constructor
      · rintro ⟨a, ha, -, he⟩
        exact K.hash_inj a b (hA.known _ a ha) hb he ▸ ha
      · exact fun hm => ⟨b, hm, rfl, rfl⟩
    unfold HeightRecord.addFork
    split
    · next hm =>
      refine ⟨h.main, fun x => ?_⟩
      simp [h.forks, addFork, hmain.1 hm]
    · next hm =>
      refine ⟨h.main, fun x => ?_⟩
      have hoff : b ∉ A.main b.chain := fun h => hm (hmain.2 h)
      exact h.contains_insert (fun f => or_congr_right (and_iff_left_of_imp (· ▸ hoff))) x
  · next hcn =>
    refine h.congr (fun _ _ => Iff.rfl) fun f hc hn => or_iff_left ?_
    rintro ⟨rfl, -⟩
    exact hcn ⟨hc, hn⟩

theorem lists_iff (hA : A.Sound K) {c : Bytes} {n : Int64} {record : HeightRecord} :
    A.Lists c n record ↔ Shelved (A.mainHashes c) (A.forksOf c) n record := by
  constructor
  · intro h
    refine ⟨h.main_eq hA, fun x => ?_⟩
    rw [h.forks]
    simp [forksOf, and_assoc]
  · intro h
    refine ⟨fun x => ?_, fun x => ?_⟩
    · rw [h.main, mainHashes, Option.map_eq_some_iff]
      simp only [mainAt_eq_some hA, and_assoc]
    · rw [h.forks]
      simp [forksOf, and_assoc]

end Book

namespace Repository

variable {K : Registry} {A : Book} {r s : Repository}

theorem Keeps.shelf (hr : r.Keeps A) (hA : A.Sound K) (c : Bytes) :
    Shelf r c (A.mainHashes c) (A.forksOf c) where
  height n := by
    obtain ⟨o, hq, hl⟩ := hr.findHeight_eq c n
    exact ⟨o, hq, (Book.lists_iff hA).1 hl⟩
  block f hf := hr.findBlock_of_holds hA (.inr hf.1)
  off f hf := Book.mainAt_ne_fork hA hf.1 c f.height

theorem Keeps.prune {c : Bytes} {gone : Block → Prop} (hr : r.Keeps A) (hA : A.Sound K)
    (h : Pruned r s c (A.mainHashes c) (A.forksOf c) gone) : s.Keeps (A.dropForks gone) where
  tip d := (h.frame _ fun b _ => by simp).trans (hr.tip d)
  tail d := (h.frame _ fun b _ => by simp).trans (hr.tail d)
  block := by
    have hholds (x : Block) : (A.dropForks gone).Holds x ↔ A.Holds x ∧ ¬ gone x :=
      A.holds_dropForks fun hm hx => hA.fork_off x (h.isFork x hx).1 hm
    refine hr.block_erase hA (fun b hb => .inr (h.isFork b hb).1) hholds
      (fun b hb => (h.erased b hb).1) fun x hx => h.frame _ fun b hb => ?_
    simpa using (hx b hb).symm
  threads d := (hr.threads d).congr fun k hk => h.frame k fun b hb => by
    cases k with
    | span => simp
    | links x =>
      refine ⟨by simp, ?_, by simp⟩
      rintro ⟨⟩
      exact hA.fork_hash_not_mem (h.isFork b hb).1 d hk
    | _ => exact hk.elim
  bare x hx := by
    by_cases hg : ∃ b, gone b ∧ b.hash = x
    · obtain ⟨b, hb, rfl⟩ := hg
      exact (h.erased b hb).2
    · rw [h.frame _ fun b hb => ⟨by simp, fun e => hg ⟨b, hb, by simpa using e.symm⟩, by simp⟩]
      exact hr.bare x hx
  height d n := by
    by_cases hn : ∃ b, gone b ∧ b.height = n ∧ d = c
    · obtain ⟨b, hb, rfl, rfl⟩ := hn
      obtain ⟨record, hv⟩ := h.rewritten b hb
      obtain ⟨o, hq, ho⟩ := findHeight_of_written hv
      obtain ⟨o', hq', hs⟩ := h.shelf.height b.height
      obtain rfl : o = o' := by simpa [hq] using hq'
      refine ⟨record, ?_, hv⟩
      rw [Book.lists_iff (Book.sound_dropForks hA gone), ← ho]
      exact ⟨hs.main, fun x => by rw [hs.forks]; simp [Book.forksOf, Book.dropForks]; tauto⟩
    · obtain ⟨record, hl, hv⟩ := hr.height d n
      refine ⟨record, hl.congr (fun _ _ => Iff.rfl) fun f hc he => and_iff_left fun hg => ?_, ?_⟩
      · exact hn ⟨f, hg, he, hc.symm.trans (h.isFork f hg).2⟩
      · rw [h.frame _ fun b hb => ⟨by simp, by simp, fun e => ?_⟩, hv]
        obtain ⟨rfl, rfl⟩ : d = c ∧ n = b.height := by simpa using e
        exact hn ⟨b, hb, rfl, rfl⟩
  chains := (h.frame _ fun b _ => by simp).trans hr.chains

end Repository

namespace Transition

variable {K : Registry} {A : Book} {r : Repository} {b : Block}

theorem ends_prune (hA : A.Sound K) (hr : r.Keeps A) (c : Bytes) (n : Int64)
    (removed : List Hash) :
    Ends (pruneOrphans c n removed) r fun _ s =>
      s.Keeps (A.dropForks (Orphan (A.forksOf c) n removed)) :=
  (ends_pruneOrphans n removed (hr.shelf hA c)).mono fun _ _ h => hr.prune hA h.pruned

theorem ends_saveFork (hA : A.Sound K) (hr : r.Keeps A) (hb : K.known b.stored) :
    Ends (saveFork b) r fun _ s => s.Keeps (A.addFork b.stored) := by
  obtain ⟨record, hrecord, hheight⟩ := hr.height b.chain b.height
  have hv : (r.put (.block b.hash) b.encode).value (.height b.chain b.height) =
      record.written := by simpa using hheight
  rw [saveFork, ends_bind, ends_put, ends_bind, ends_heightRecord hv, saveHeight, ends_put]
  refine ⟨fun c => ?_, fun c => ?_, fun x v => ?_, fun c => ?_, fun x hx => ?_, fun c n => ?_, ?_⟩
  · simpa using hr.tip c
  · simpa using hr.tail c
  · simpa using hr.block_put hA hb (Book.holds_addFork A b.stored) x v
  · exact (hr.threads c).congr fun k hk => by cases k <;> simp_all [Key.OnThreads]
  · simpa using hr.bare x hx
  · by_cases hcn : b.chain = c ∧ b.height = n
    · obtain ⟨rfl, rfl⟩ := hcn
      have hl := Book.lists_addFork hA hb hrecord
      simp only [Block.chain_stored, Block.height_stored, Block.hash_stored, and_self,
        if_true] at hl
      exact ⟨_, hl, by simp [HeightRecord.written_addFork]⟩
    · obtain ⟨record', hl', hv'⟩ := hr.height c n
      have hl := Book.lists_addFork hA hb hl'
      simp only [Block.chain_stored, Block.height_stored, hcn, if_false] at hl
      exact ⟨record', hl, by simp [hcn, hv']⟩
  · simpa using hr.chains

theorem refuses_deleteBlock (hA : A.Sound K) (hr : r.Keeps A) {c : Bytes} (hb : b ∈ A.main c) :
    Refuses (deleteBlock b.hash) r (.linkage b.hash .onBestChain) := by
  obtain rfl := hA.chain c b hb
  obtain ⟨o, hq, hl⟩ := hr.findHeight_eq b.chain b.height
  have hmain : (o.getD .empty).main = some b.hash := (hl.main _).2 ⟨b, hb, rfl, rfl⟩
  cases o with
  | none => cases hmain
  | some record =>
    rw [Refuses, deleteBlock, run_bind_ok (run_query_ok (hr.findBlock_of_holds hA (.inl hb)))]
    simp only
    rw [run_bind_ok (run_query_ok hq)]
    simp only [Option.getD_some] at hmain
    simp only [hmain, if_true]
    rfl

theorem ends_deleteBlock_unknown (hr : r.Keeps A) {hash : Hash}
    (h : ∀ b, A.Holds b → b.hash ≠ hash) : Ends (deleteBlock hash) r fun _ s => s = r := by
  rw [deleteBlock, ends_query_bind (hr.findBlock_none h)]
  exact ends_pure.2 rfl

theorem ends_deleteBlock (hA : A.Sound K) (hr : r.Keeps A) (hb : A.fork b) :
    Ends (deleteBlock b.hash) r fun _ s =>
      s.Keeps (A.dropForks (Descends (A.forksOf b.chain) b)) := by
  obtain ⟨record, hq, hl, -⟩ := hr.fork_listed hb
  have hmain : record.main ≠ some b.hash := by
    rw [hl.main_eq hA]
    exact Book.mainAt_ne_fork hA hb _ _
  rw [deleteBlock, ends_query_bind (hr.findBlock_of_holds hA (.inr hb))]
  simp only
  rw [ends_query_bind hq]
  simp only [hmain, if_false]
  rw [ends_bind]
  refine ends_storeHeight.mono fun _ r₁ h₁ => ?_
  rw [ends_bind, ends_eraseBlock]
  have hpruned : Pruned r ((r₁.delete (.block b.hash)).delete (.links b.hash)) b.chain
      (A.mainHashes b.chain) (A.forksOf b.chain) (· = b) := by
    refine pruned_of_erased (l := [b.hash]) (hr.shelf hA b.chain)
      ((Book.lists_iff hA).1 hl) (fun x => ?_) ?_ (by simp) fun k => ?_
    · simp [eq_comm]
    · rintro a rfl
      exact ⟨⟨hb, rfl⟩, rfl⟩
    · cases k <;> simp [h₁, Key.OfBlocks, eq_comm]
  have hr₂ := hr.prune hA hpruned
  have hA₂ := Book.sound_dropForks hA (· = b)
  have hgone : Descends (A.forksOf b.chain) b = fun x => x = b ∨
      ∃ above, Checked.succ? b.height = some above ∧
        Orphan (fun f => A.forksOf b.chain f ∧ ¬ f = b) above [b.hash] x := by
    funext x
    have h := @Descends.iff_orphan _ (A.forksOf b.chain) (· = b) b.height [b.hash]
      (by rintro f rfl; rfl) (by simp [eq_comm]) x
    simpa using h
  rw [hgone]
  split
  · next above hsucc =>
    rw [ends_discard]
    refine (ends_prune hA₂ hr₂ b.chain above [b.hash]).mono fun _ s hs => ?_
    rw [Book.dropForks_dropForks, Book.forksOf_dropForks] at hs
    simpa only [hsucc, Option.some.injEq, exists_eq_left'] using hs
  · next htop =>
    rw [ends_pure]
    simpa only [htop, reduceCtorEq, false_and, exists_false, or_false] using hr₂

end Transition

end ChainState
