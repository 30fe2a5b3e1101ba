import ChainState.Branch
import ChainState.Proofs.Disconnect
import ChainState.Proofs.Effects
import ChainState.Proofs.Laws

/-!
# Putting a branch on the best chain

The best chain is rolled back block by block to a fork point, and the blocks
of a branch are validated and connected one after the other. Either all of
them are, and the book is cut at the fork point and grown by the branch, or
some block fails where it would stand.
-/

set_option autoImplicit false

namespace ChainState

variable [Crypto]

namespace Book

/-- The best chain of `chain` becomes `kept`; what is cut off becomes forks. -/
def cut (A : Book) (chain : Bytes) (kept cutOff : List Block) : Book where
  main := Function.update A.main chain kept
  fork f := A.fork f ∨ f ∈ cutOff
  chains := A.chains

@[simp] theorem main_cut (A : Book) (chain : Bytes) (kept cutOff : List Block) (c : Bytes) :
    (A.cut chain kept cutOff).main c = if c = chain then kept else A.main c :=
  Function.update_apply ..

theorem cut_nil (A : Book) (chain : Bytes) : A.cut chain (A.main chain) [] = A := by
  rw [cut, Function.update_eq_self]
  simp

theorem cut_concat {A : Book} {b : Block} (kept cutOff : List Block) :
    A.cut b.chain kept (cutOff ++ [b]) = (A.popTip b).cut b.chain kept cutOff := by
  rw [cut, cut, popTip]
  congr 1
  · rw [Function.update_idem]
  · funext f
    simp only [List.mem_append, List.mem_singleton]
    exact propext ⟨fun h => h.elim (.inl ∘ .inl) fun h => h.elim .inr (.inl ∘ .inr),
      fun h => h.elim (fun h => h.elim .inl (.inr ∘ .inr)) (.inr ∘ .inl)⟩

theorem sound_cut {K : Registry} {A : Book} {c : Bytes} {kept : List Block} (cutOff : List Block)
    (hA : A.Sound K) (hm : A.main c = kept ++ cutOff) : (A.cut c kept cutOff).Sound K := by
  induction cutOff using List.reverseRecOn generalizing A with
  | nil =>
    rw [List.append_nil] at hm
    rw [← hm, cut_nil]
    exact hA
  | append_singleton cutOff b ih =>
    have hsplit : A.main c = (kept ++ cutOff) ++ [b] := by simp [hm]
    obtain rfl := hA.chain c b (by simp [hsplit])
    have htip : (A.main b.chain).getLast? = some b := by rw [hsplit, List.getLast?_concat]
    rw [cut_concat]
    apply ih (sound_popTip hA htip)
    rw [main_popTip, if_pos rfl, hsplit, List.dropLast_concat]

def grow (A : Book) (branch : List Block) : Book :=
  branch.foldl (fun A b => A.pushTip b.stored) A

theorem main_grow (A : Book) {branch : List Block} {chain : Bytes}
    (h : ∀ b ∈ branch, b.chain = chain) (c : Bytes) : (A.grow branch).main c =
      if c = chain then A.main chain ++ branch.map Block.stored else A.main c := by
  induction branch generalizing A with
  | nil =>
    split
    · next hc => simp [grow, hc]
    · rfl
  | cons b rest ih =>
    obtain rfl : b.chain = chain := h b (by simp)
    have hrest : ∀ x ∈ rest, x.chain = b.chain := fun x hx => h x (by simp [hx])
    rw [grow, List.foldl_cons]
    refine (ih (A.pushTip b.stored) hrest).trans ?_
    by_cases hc : c = b.chain <;> simp [hc]

theorem fork_grow (A : Book) (branch : List Block) (f : Block) :
    (A.grow branch).fork f ↔ A.fork f ∧ f ∉ branch.map Block.stored := by
  induction branch generalizing A with
  | nil => simp [grow]
  | cons b rest ih =>
    rw [grow, List.foldl_cons]
    refine (ih (A.pushTip b.stored)).trans ?_
    simp [pushTip, and_assoc]

end Book

namespace Node

open Transition

variable {ε α : Type} {error : RepositoryError → ε} {t : Transition α} {r s : Repository}

theorem run_ofTransition_ok {x : α} (h : t.run.run r = (.ok x, s)) :
    (ofTransition error t).run.run r = (.ok x, s) := by
  simp only [ofTransition, ExceptT.run_mk, StateT.run_bind, h]
  rfl

theorem run_ofTransition_error {e : RepositoryError} (h : t.run.run r = (.error e, s)) :
    (ofTransition error t).run.run r = (.error (error e), s) := by
  simp only [ofTransition, ExceptT.run_mk, StateT.run_bind, h]
  rfl

theorem ends_ofTransition {post : α → Repository → Prop} (h : Ends t r post) :
    Ends (ofTransition error t) r post := by
  obtain ⟨x, s, hrun, hpost⟩ := h
  exact ⟨x, s, run_ofTransition_ok hrun, hpost⟩

theorem snd_ofTransition : ((ofTransition error t).run.run r).2 = (t.run.run r).2 := by
  cases h : t.run.run r with
  | mk x s =>
    cases x with
    | ok x => rw [run_ofTransition_ok h]
    | error e => rw [run_ofTransition_error h]

theorem run_ofCheck (check : Repository → Check α) (r : Repository) :
    (ofCheck check).run.run r = (check r, r) := by
  rw [ofCheck, run_get_bind]
  cases check r <;> rfl

theorem ends_ofCheck_bind {β : Type} {check : Repository → Check α}
    {f : α → Action ValidationError β} {post : β → Repository → Prop} {x : α}
    (h : check r = .ok x) : Ends (ofCheck check >>= f) r post ↔ Ends (f x) r post := by
  have hrun : (ofCheck check).run.run r = (.ok x, r) := by rw [run_ofCheck, h]
  rw [Ends, Ends, run_bind_ok hrun]

theorem leaves_ofCheck_bind {β : Type} {check : Repository → Check α}
    {f : α → Action ValidationError β} {post : Repository → Prop} (hr : post r)
    (hf : ∀ x, check r = .ok x → Leaves (f x) r post) :
    Leaves (ofCheck check >>= f) r post := by
  apply leaves_bind
  · intro e s h
    obtain ⟨-, rfl⟩ := Prod.mk.inj ((run_ofCheck check r).symm.trans h)
    exact hr
  · intro x s h
    obtain ⟨hx, rfl⟩ := Prod.mk.inj ((run_ofCheck check r).symm.trans h)
    exact hf x hx

theorem leaves_ofTransition {post : Repository → Prop} (h : Leaves t r post) :
    Leaves (ofTransition error t) r post := by
  rw [Leaves, snd_ofTransition]
  exact h

theorem local_ofTransition (h : Local t) : Local (ofTransition error t) := by
  intro r
  rw [snd_ofTransition]
  exact h r

theorem unchanging_ofCheck (check : Repository → Check α) : Unchanging (ofCheck check) := by
  intro r
  rw [run_ofCheck]

theorem local_ofCheck (check : Repository → Check α) : Local (ofCheck check) :=
  (unchanging_ofCheck check).toLocal

end Node

namespace Branch

open Transition

theorem local_rollBackTo (forkPoint : Hash) (steps : Nat) (cursor : Block) :
    Local (rollBackTo forkPoint steps cursor) := by
  induction steps generalizing cursor with
  | zero => exact local_pure _
  | succ steps ih =>
    apply local_ite (local_pure _)
    apply local_bind (Node.local_ofTransition (amends_rollBack cursor).toLocal)
    intro _
    exact local_bind (Node.local_ofTransition (local_query _)) ih

theorem run_extend (block : Block) (r : Repository) :
    (extend block).run.run r = (match validateBlock r block with
      | .ok _ => transition (connectTip block)
      | .error e => throw (.validation e) : Rebase Unit).run.run r :=
  run_bind_ok (show (get : Rebase Repository).run.run r = (.ok r, r) from rfl)

theorem local_extend (block : Block) : Local (extend block) := by
  intro r
  rw [run_extend]
  cases validateBlock r block with
  | ok _ => exact Node.local_ofTransition (amends_connectTip block).toLocal r
  | error e => exact local_throw _ r

theorem run_rebase (tip : Block) (forkPoint : Hash) (branch : List Block) (r : Repository) :
    (rebase tip forkPoint branch).run.run r = (do
      rollBackTo forkPoint (Consensus.maxReorgDepth.toInt.toNat + r.recordCount + 1) tip
      branch.forM extend : Rebase Unit).run.run r :=
  run_bind_ok (show (get : Rebase Repository).run.run r = (.ok r, r) from rfl)

theorem local_rebase (tip : Block) (forkPoint : Hash) (branch : List Block) :
    Local (rebase tip forkPoint branch) := by
  intro r
  rw [run_rebase]
  exact local_bind (local_rollBackTo _ _ _) (fun _ => local_forM local_extend branch) r

variable {K : Registry} {A B : Book} {r s : Repository} {c : Bytes}

theorem ends_rollBackTo {lo : List Block} {fork : Block} (hi : List Block) (hA : A.Sound K)
    (hr : r.Keeps A) (hm : A.main c = lo ++ fork::hi) {cursor : Block}
    (hcursor : (A.main c).getLast? = some cursor) {steps : Nat} (hsteps : hi.length < steps) :
    Ends (rollBackTo fork.hash steps cursor) r fun _ s =>
      s.Keeps (A.cut c (lo ++ [fork]) hi) := by
  obtain ⟨steps, rfl⟩ : ∃ n, steps = n + 1 := ⟨steps - 1, by omega⟩
  -- on the blocks above the fork point, the tip first: the cursor stays the tip
  induction hi using List.reverseRecOn generalizing A r cursor steps with
  | nil =>
    obtain rfl : fork = cursor := by simpa [hm] using hcursor
    rw [rollBackTo, if_pos rfl, ← hm, A.cut_nil]
    exact ends_pure.2 hr
  | append_singleton hi b ih =>
    have hsplit : A.main c = (lo ++ fork::hi) ++ [b] := by simp [hm]
    obtain rfl : b = cursor := by
      rw [hsplit, List.getLast?_concat] at hcursor
      exact Option.some.inj hcursor
    have hb := List.mem_of_getLast? hcursor
    obtain rfl := hA.chain c b hb
    have hne : b.hash ≠ fork.hash := by
      intro he
      have hn := hA.nodup b.chain
      rw [hsplit] at hn
      have := (List.nodup_append.1 hn).2.2 fork (by simp) b (by simp)
      exact this (hA.eq_of_hash (show fork ∈ A.main b.chain by simp [hm]) hb he.symm)
    have hA' := Book.sound_popTip hA hcursor
    have hpop : (A.popTip b).main b.chain = lo ++ fork::hi := by
      rw [Book.main_popTip, if_pos rfl, hsplit, List.dropLast_concat]
    obtain ⟨parent, hparent⟩ : ∃ p, (lo ++ fork::hi).getLast? = some p :=
      ⟨_, List.getLast?_eq_some_getLast (by simp)⟩
    have hlink : b.parent = parent.hash := (hA.under_of_split hsplit parent hparent).1
    have hroll : Ends (rollBack b) r fun _ s => s.Keeps (A.popTip b) := by
      have hstored : b.stored = b := K.stored b (hA.known _ b hb)
      have htip : (A.main b.chain).getLast? = some b.stored := by rw [hstored, hcursor]
      have h := ends_rollBack hA hr htip
      rwa [hstored] at h
    rw [rollBackTo, if_neg hne, ends_bind, Book.cut_concat]
    refine (Node.ends_ofTransition hroll).mono fun _ r' hr' => ?_
    have hmem := List.mem_of_getLast? hparent
    rw [← hpop] at hmem hparent
    have hnamed : r'.namedBlock b.parent = .ok parent := by
      rw [hlink]
      exact hr'.namedBlock_of_holds hA' (hA'.holds_of_mem hmem)
    rw [List.length_append, List.length_singleton] at hsteps
    obtain ⟨steps, rfl⟩ : ∃ n, steps = n + 1 := ⟨steps - 1, by omega⟩
    rw [ends_bind]
    exact Node.ends_ofTransition ((ends_query hnamed).2 (ih hA' hr' hpop hparent steps (by omega)))

def grown (blocks : List Block) : Repository :=
  blocks.foldl (fun r b => ((connectTip b).run.run r).2) .empty

/-- Every block of the branch passes validation where it would stand. -/
def Passes (below branch : List Block) : Prop :=
  ∀ before b after, branch = before ++ b::after →
    validateBlock (grown (below ++ before)) b = .ok ()

theorem passes_nil (below : List Block) : Passes below [] := by
  intro before b after h
  simp at h

theorem passes_cons {below rest : List Block} {b : Block} :
    Passes below (b::rest) ↔
      validateBlock (grown below) b = .ok () ∧ Passes (below ++ [b]) rest := by
  constructor
  · intro h
    refine ⟨by simpa using h [] b rest rfl, fun before x after hrest => ?_⟩
    simpa using h (b::before) x after (by simp [hrest])
  · rintro ⟨hb, hrest⟩ before x after h
    cases before with
    | nil =>
      obtain ⟨rfl, rfl⟩ : b = x ∧ rest = after := by simpa using h
      simpa using hb
    | cons y before =>
      obtain ⟨rfl, hsplit⟩ : b = y ∧ rest = before ++ x::after := by simpa using h
      simpa using hrest before x after hsplit

/-- The given blocks have grown to the best chain of `c`. -/
def Grows (K : Registry) (c : Bytes) (blocks : List Block) : Prop :=
  ∃ G : Book, G.Sound K ∧ (grown blocks).Keeps G ∧ G.main c = blocks.map Block.stored

theorem grows_nil (K : Registry) (c : Bytes) : Grows K c [] :=
  ⟨.empty, Book.sound_empty K, Repository.keeps_empty, rfl⟩

variable {below : List Block} {b : Block}

theorem Grows.concat (h : Grows K c below) (hb : K.known b.stored) (hc : b.chain = c)
    (htakes : ∀ t ∈ (below.map Block.stored).getLast?, t.Under b) :
    Grows K c (below ++ [b]) := by
  obtain ⟨G, hG, hkeeps, hmain⟩ := h
  subst hc
  have ht : G.TakesTip b := by rwa [Book.TakesTip, hmain]
  refine ⟨G.pushTip b.stored, Book.sound_pushTip hG hb (Book.takesTip_stored.2 ht), ?_, ?_⟩
  · rw [grown, List.foldl_append]
    exact (ends_connectTip hG hkeeps hb ht).snd
  · simp [hmain]

theorem grows_of_linked {blocks : List Block} (hknown : ∀ b ∈ blocks, K.known b.stored)
    (hchain : ∀ b ∈ blocks, b.chain = c) (hlinked : (blocks.map Block.stored).IsChain Block.Under) :
    Grows K c blocks := by
  induction blocks using List.reverseRecOn with
  | nil => exact grows_nil K c
  | append_singleton blocks b ih =>
    rw [List.map_append, List.isChain_append] at hlinked
    apply Grows.concat
    · apply ih
      · exact fun x hx => hknown x (by simp [hx])
      · exact fun x hx => hchain x (by simp [hx])
      · exact hlinked.1
    · exact hknown b (by simp)
    · exact hchain b (by simp)
    · intro t ht
      simpa [Block.Under] using hlinked.2.2 t ht b.stored (by simp)

theorem Grows.passes (h : Grows K c below) (hc : b.chain = c) {parent : Block}
    {waited : Int64} (hfits : TipFits b (below.map Block.stored) parent waited) :
    validateBlock (grown below) b = .ok () := by
  obtain ⟨G, hG, hkeeps, hmain⟩ := h
  subst hc
  rw [← hmain] at hfits
  exact hfits.validateBlock hG hkeeps

theorem Grows.fits (h : Grows K c below) (hc : b.chain = c)
    (hb : validateBlock (grown below) b = .ok ()) :
    ∃ parent, (below.map Block.stored).getLast? = some parent ∧
      Fits (grown below) b parent := by
  obtain ⟨G, hG, hkeeps, hmain⟩ := h
  subst hc
  rw [← hmain]
  exact fits_of_validateBlock hG hkeeps hb

theorem Grows.step (h : Grows K c below) (hb : K.known b.stored) (hc : b.chain = c)
    (hpass : validateBlock (grown below) b = .ok ()) : Grows K c (below ++ [b]) := by
  obtain ⟨parent, hparent, hfits⟩ := h.fits hc hpass
  apply h.concat hb hc
  intro t ht
  obtain rfl : parent = t := by simpa [hparent] using ht
  exact hfits.under

theorem law_of_passes {P : List Block → Prop} {branch : List Block} (hP : Law P)
    (h : Grows K c below) (hknown : ∀ b ∈ branch, K.known b.stored)
    (hchain : ∀ b ∈ branch, b.chain = c) (hpasses : Passes below branch)
    (ha : P (below.map Block.stored)) : P ((below ++ branch).map Block.stored) := by
  induction branch generalizing below with
  | nil => rwa [List.append_nil]
  | cons b rest ih =>
    obtain ⟨hb, hrest⟩ := passes_cons.1 hpasses
    have hc := hchain b (by simp)
    have hstep := h.step (hknown b (by simp)) hc hb
    obtain ⟨G, hG, hkeeps, hmain⟩ := h
    subst hc
    have hjoined : P ((below ++ [b]).map Block.stored) := by
      rw [← hmain] at ha
      have := hP.joins hG hkeeps (.validated hb) ha
      rwa [hmain, ← List.map_singleton, ← List.map_append] at this
    have := ih hstep (fun x hx => hknown x (by simp [hx])) (fun x hx => hchain x (by simp [hx]))
      hrest hjoined
    rwa [List.append_assoc] at this

theorem ends_extend (hA : A.Sound K) (hr : r.Keeps A) (hb : K.known b.stored)
    (h : validateBlock r b = .ok ()) :
    (A.pushTip b.stored).Sound K ∧ Ends (extend b) r fun _ s => s.Keeps (A.pushTip b.stored) := by
  obtain ⟨parent, hparent, hfits⟩ := fits_of_validateBlock hA hr h
  have ht := hfits.takesTip hparent
  refine ⟨Book.sound_pushTip hA hb (Book.takesTip_stored.2 ht), ?_⟩
  rw [Ends, run_extend, h]
  exact Node.ends_ofTransition (ends_connectTip hA hr hb ht)

theorem run_extend_error {e : ValidationError} (h : validateBlock r b = .error e) :
    (extend b).run.run r = (.error (.validation e), r) := by
  rw [run_extend, h]
  rfl

theorem ends_forM_extend (branch : List Block) (hA : A.Sound K) (hr : r.Keeps A)
    (h : Grows K c below) (hmain : A.main c = below.map Block.stored)
    (hknown : ∀ b ∈ branch, K.known b.stored) (hchain : ∀ b ∈ branch, b.chain = c)
    (hpasses : Passes below branch) :
    (A.grow branch).Sound K ∧
      Ends (branch.forM extend) r fun _ s => s.Keeps (A.grow branch) := by
  induction branch generalizing A r below with
  | nil => exact ⟨hA, ends_pure.2 hr⟩
  | cons b rest ih =>
    obtain ⟨hb, hrest⟩ := passes_cons.1 hpasses
    have hstep := h.step (hknown b (by simp)) (hchain b (by simp)) hb
    obtain rfl := hchain b (by simp)
    obtain ⟨G, hG, hkeeps, hG'⟩ := h
    have hpass : validateBlock r b = .ok () :=
      validateBlock_congr hG hkeeps hA hr (hmain.trans hG'.symm) hb
    obtain ⟨hA', hends⟩ := ends_extend hA hr (hknown b (by simp)) hpass
    have hmain' : (A.pushTip b.stored).main b.chain = (below ++ [b]).map Block.stored := by
      simp [hmain]
    have hgo : ∀ s : Repository, s.Keeps (A.pushTip b.stored) → _ := fun s hs =>
      ih hA' hs hstep hmain' (fun x hx => hknown x (by simp [hx]))
        (fun x hx => hchain x (by simp [hx])) hrest
    refine ⟨(hgo _ hends.snd).1, ?_⟩
    exact ends_bind.2 (hends.mono fun _ s hs => (hgo s hs).2)

theorem forM_extend_error (branch : List Block) (hA : A.Sound K) (hr : r.Keeps A)
    (h : Grows K c below) (hmain : A.main c = below.map Block.stored)
    (hknown : ∀ b ∈ branch, K.known b.stored) (hchain : ∀ b ∈ branch, b.chain = c)
    (hpasses : ¬ Passes below branch) :
    ∃ e s, (branch.forM extend).run.run r = (.error e, s) := by
  induction branch generalizing A r below with
  | nil => exact absurd (passes_nil below) hpasses
  | cons b rest ih =>
    obtain rfl := hchain b (by simp)
    cases hv : validateBlock r b with
    | error e => exact ⟨_, _, run_bind_error (run_extend_error hv)⟩
    | ok u =>
      have hb : validateBlock (grown below) b = .ok () := by
        obtain ⟨G, hG, hkeeps, hG'⟩ := h
        exact validateBlock_congr hA hr hG hkeeps (hG'.trans hmain.symm) hv
      have hrest : ¬ Passes (below ++ [b]) rest := fun hp => hpasses (passes_cons.2 ⟨hb, hp⟩)
      have hstep := h.step (hknown b (by simp)) rfl hb
      obtain ⟨hA', x, s, hrun, hs⟩ := ends_extend hA hr (hknown b (by simp)) hv
      obtain ⟨e, s', herr⟩ := ih hA' hs hstep (by simp [hmain])
        (fun x hx => hknown x (by simp [hx])) (fun x hx => hchain x (by simp [hx])) hrest
      exact ⟨e, s', (run_bind_ok hrun).trans herr⟩

end Branch

end ChainState
