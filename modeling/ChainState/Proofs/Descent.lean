import ChainState.Proofs.Balances
import ChainState.Proofs.Values

/-!
# Forks and what descends from them

A node sets a block aside only on a block that it holds, and takes a block off
a best chain only together with those above it. So every block it stores rests
on its parent, down to the block that opened the chain. To delete a fork is to
delete what leads back to it through parents, and this is all that goes.
-/

set_option autoImplicit false

namespace ChainState

section

variable [Crypto]

namespace Book

def Rests (A : Book) (b : Block) : Prop := ∃ a, A.Holds a ∧ a.chain = b.chain ∧ a.Under b

structure Rooted (A : Book) : Prop where
  begins : ∀ c, ∀ first ∈ (A.main c).head?, first.isGenesis = true
  rests : ∀ f, A.fork f → A.Rests f

variable {K : Registry} {A B : Book} {b : Block}

theorem Sound.exists_below (hA : A.Sound K) {c : Bytes} {pre post : List Block}
    (hm : A.main c = pre ++ b::post) (hpre : pre ≠ []) : ∃ a ∈ A.main c, a.Under b := by
  obtain ⟨lo, a, rfl⟩ := (List.eq_nil_or_concat' pre).resolve_left hpre
  exact ⟨a, by simp [hm], hA.under_of_split hm a (by simp)⟩

theorem Sound.rests_of_below (hA : A.Sound K) {c : Bytes} (hb : b ∈ A.main c)
    (h : ∃ a ∈ A.main c, a.Under b) : A.Rests b := by
  obtain ⟨a, ha, hunder⟩ := h
  exact ⟨a, hA.holds_of_mem ha, (hA.chain c a ha).trans (hA.chain c b hb).symm, hunder⟩

namespace Rooted

theorem exists_below (h : A.Rooted) (hA : A.Sound K) {c : Bytes} (hb : b ∈ A.main c)
    (hgenesis : b.isGenesis = false) : ∃ a ∈ A.main c, a.Under b := by
  obtain ⟨pre, post, hm⟩ := List.append_of_mem hb
  refine hA.exists_below hm ?_
  rintro rfl
  rw [h.begins c b (by simp [hm])] at hgenesis
  cases hgenesis

theorem rests_of_holds (h : A.Rooted) (hA : A.Sound K) (hb : A.Holds b)
    (hgenesis : b.isGenesis = false) : A.Rests b := by
  rcases hb with hb | hb
  · exact hA.rests_of_below hb (h.exists_below hA hb hgenesis)
  · exact h.rests b hb

theorem grow (h : A.Rooted) (hbegins : ∀ c, ∀ first ∈ (B.main c).head?, first.isGenesis = true)
    (hholds : ∀ x, A.Holds x → B.Holds x) (hnew : ∀ f, B.fork f → A.Rests f ∨ A.fork f) :
    B.Rooted where
  begins := hbegins
  rests f hf := by
    obtain ⟨a, ha, hrests⟩ := (hnew f hf).elim id (h.rests f)
    exact ⟨a, hholds a ha, hrests⟩

theorem dropForks (h : A.Rooted) (b : Block) :
    (A.dropForks (Descends (A.forksOf b.chain) b)).Rooted where
  begins := h.begins
  rests f hf := by
    obtain ⟨a, ha, hchain, hunder⟩ := h.rests f hf.1
    refine ⟨a, ha.imp id fun hfork => ⟨hfork, fun hgone => hf.2 ?_⟩, hchain, hunder⟩
    have hc : f.chain = b.chain := hchain.symm.trans (hgone.chain_eq rfl)
    exact .child hgone ⟨hf.1, hc⟩ hunder

end Rooted

theorem rooted_empty : empty.Rooted where
  begins _ _ h := nomatch h
  rests _ h := h.elim

end Book

variable {K : Registry} {A B : Book} {r s : Repository} {b : Block}

theorem Branch.holds_rebased {branch lo hi : List Block} {fork : Block} {c : Bytes}
    (h : Branch.Replaces A.main branch c lo fork hi) {x : Block} (hx : A.Holds x) :
    (Branch.rebased A branch c lo fork hi).Holds x := by
  rw [Book.Holds, Branch.main_rebased h.onChain, Branch.fork_rebased]
  by_cases hnew : x ∈ branch.map Block.stored
  · have hc : x.chain = c := by
      obtain ⟨b, hb, rfl⟩ := List.mem_map.1 hnew
      rw [b.chain_stored, h.onChain b hb]
    rw [if_pos hc]
    exact .inl (List.mem_append_right _ hnew)
  · rcases hx with hx | hx
    · split
      · next hc =>
        rw [hc, h.split, List.append_cons, List.mem_append] at hx
        exact hx.imp (List.mem_append_left _) fun hhi => ⟨.inr hhi, hnew⟩
      · exact .inl hx
    · exact .inr ⟨.inl hx, hnew⟩

namespace NodeCall.Advances

variable {call : NodeCall}

theorem holds (h : call.Advances K r A B) {x : Block} (hx : A.Holds x) : B.Holds x := by
  cases h with
  | same => exact hx
  | @opened b _ _ | @entered b _ =>
    exact ((Book.gains_pushTip A b.stored).holds x).2 (.inr hx)
  | @setAside b parent _ _ _ => exact (Book.holds_addFork A b.stored x).2 (.inr hx)
  | switched _ h => exact Branch.holds_rebased h hx

theorem rests_or_fork (h : call.Advances K r A B) (hA : A.Sound K) {f : Block} (hf : B.fork f) :
    A.Rests f ∨ A.fork f := by
  cases h with
  | same => exact .inr hf
  | opened _ _ | entered _ => exact .inr hf.1
  | @setAside b parent hparent hchain hunder =>
    rcases hf with hf | ⟨rfl, -⟩
    · exact .inr hf
    · have hstored : parent.Under b.stored := by
        rwa [Block.Under, b.parent_stored, b.height_stored]
      exact .inl ⟨parent, hparent, hchain.trans b.chain_stored.symm, hstored⟩
  | @switched branch lo hi fork c hknown h =>
    rcases ((Branch.fork_rebased f).1 hf).1 with hf | hf
    · exact .inr hf
    · -- what is taken off the chain stood above the fork point
      obtain ⟨pre, post, rfl⟩ := List.append_of_mem hf
      have hm : A.main c = (lo ++ fork::pre) ++ f::post := by simp [h.split]
      exact .inl (hA.rests_of_below (by simp [hm]) (hA.exists_below hm (by simp)))

theorem rooted (h : call.Advances K r A B) (hA : A.Sound K) (hrooted : A.Rooted)
    (hbegins : ∀ c, ∀ first ∈ (B.main c).head?, first.isGenesis = true) : B.Rooted :=
  hrooted.grow hbegins (fun _ => h.holds) fun _ => h.rests_or_fork hA

end NodeCall.Advances

inductive ForkCall where
  | node (call : NodeCall)
  | deleteBlock (hash : Hash)

namespace ForkCall

def blocks (r : Repository) : ForkCall → List Block
  | .node call => call.blocks r
  | .deleteBlock _ => []

def perform (r : Repository) : ForkCall → Repository
  | .node call => call.perform r
  | .deleteBlock hash => ((Transition.deleteBlock hash).run.run r).2

def run (calls : List ForkCall) : Repository := calls.foldl perform .empty

def blocksFrom : Repository → List ForkCall → List Block
  | _, [] => []
  | r, call::calls => call.blocks r ++ blocksFrom (call.perform r) calls

end ForkCall

open Transition

theorem Repository.Keeps.perform_deleteBlock (hr : r.Keeps A) (hA : A.Sound K) (hash : Hash) :
    Leaves (deleteBlock hash) r fun s => s.Keeps A ∨
      ∃ b, A.fork b ∧ b.hash = hash ∧ s.Keeps (A.dropForks (Descends (A.forksOf b.chain) b)) := by
  rcases hr.findBlock_cases hA hash with ⟨b, hb | hb, rfl, -⟩ | ⟨hnone, -⟩
  · rw [Leaves, (refuses_deleteBlock hA hr hb).snd]
    exact .inl hr
  · exact ((ends_deleteBlock hA hr hb).mono fun _ s hs => .inr ⟨b, hb, rfl, hs⟩).leaves
  · refine ((ends_deleteBlock_unknown hr hnone).mono fun _ s hs => .inl ?_).leaves
    rwa [hs]

/-- What a node that deletes forks upholds. -/
def Book.Grounded (A : Book) : Prop := (∀ c, Audited (A.main c)) ∧ A.Rooted

namespace ForkCall

theorem upholds (h : Upholds Book.Grounded K r) (call : ForkCall)
    (hcall : ∀ b ∈ call.blocks r, K.known b.stored) : Upholds Book.Grounded K (call.perform r) := by
  cases call with
  | node call =>
    apply h.perform call hcall
    · exact fun A b _ hA hb htakes => absurd htakes (NodeCall.not_takesTail hA.2.begins hb)
    · rintro A B hA hr ⟨ha, hrooted⟩ hB hadvances
      have hb := hadvances.lawful law_audited hA hr ha call.opens_audited
      exact ⟨hb, hadvances.rooted hA hrooted fun c => law_audited.begins _ (hb c)⟩
  | deleteBlock hash =>
    obtain ⟨A, hA, hr, ha, hrooted⟩ := h.staged
    apply h.leaves_local (amends_deleteBlock hash).toLocal
    rcases hr.perform_deleteBlock hA hash with hs | ⟨b, hb, -, hs⟩
    · exact ⟨A, hA, hs, ha, hrooted⟩
    · exact ⟨_, Book.sound_dropForks hA _, hs, ha, hrooted.dropForks b⟩

theorem upholds_of_admissible {calls : List ForkCall} (h : Admissible (blocksFrom .empty calls)) :
    Upholds Book.Grounded h.registry (run calls) :=
  Upholds.foldl (fun _ _ _ => rfl) (fun _ call h hcall => upholds h call hcall) calls
    (upholds_empty _ ⟨fun _ => law_audited.nil, Book.rooted_empty⟩) fun b hb => ⟨b, hb, rfl⟩

end ForkCall

/-- Stored blocks lead from `y` back to `x`, each naming the next as its parent. -/
inductive Repository.Descendant (r : Repository) (x : Hash) : Hash → Prop
  | self : r.Descendant x x
  | child {y z : Hash} {b : Block} (h : r.Descendant x y) (hb : r.findBlock z = .ok (some b))
      (hparent : b.parent = y) : r.Descendant x z

theorem Descends.fork {fork : Block → Prop} {a b : Block} (h : Descends fork a b) (ha : fork a) :
    fork b := by
  cases h with
  | self => exact ha
  | child _ hb _ => exact hb

/-- Parents alone tell what descends from a fork: no best-chain block does, and
every other one lies on the chain of its parent, one higher. -/
theorem Repository.Keeps.descendant_iff (hr : r.Keeps A) (hA : A.Sound K) (h : A.Rooted)
    (hb : A.fork b) {y : Hash} :
    r.Descendant b.hash y ↔ ∃ f, Descends (A.forksOf b.chain) b f ∧ f.hash = y := by
  constructor
  · intro hy
    induction hy with
    | self => exact ⟨b, .self, rfl⟩
    | @child y z x _ hx hparent ih =>
      obtain ⟨f, hf, rfl⟩ := ih
      obtain ⟨hholds, rfl⟩ := (hr.findBlock_eq_some hA).1 hx
      obtain ⟨hfork, hchain⟩ := hf.fork ⟨hb, rfl⟩
      have hknown := hA.fork_known f hfork
      have hgenesis : x.isGenesis = false := by
        rw [Block.isGenesis, hparent, FixedBytes.isZero]
        simpa using K.hash_ne_zero f hknown
      have same {a : Block} (ha : A.Holds a) (hunder : a.Under x) : a = f :=
        K.hash_inj a f (hA.holds_known ha) hknown (hunder.1.symm.trans hparent)
      have hoff : x ∉ A.main x.chain := by
        intro hmain
        obtain ⟨a, ha, hunder⟩ := h.exists_below hA hmain hgenesis
        obtain rfl := same (hA.holds_of_mem ha) hunder
        rw [← hA.chain _ a ha] at ha
        exact hA.fork_off a hfork ha
      have hx := hholds.resolve_left hoff
      obtain ⟨a, ha, hsame, hunder⟩ := h.rests x hx
      obtain rfl := same ha hunder
      exact ⟨x, .child hf ⟨hx, hsame.symm.trans hchain⟩ hunder, rfl⟩
  · rintro ⟨f, hf, rfl⟩
    induction hf with
    | self => exact .self
    | @child a x _ hx hunder ih =>
      exact .child ih (hr.findBlock_of_holds hA (.inr hx.1)) hunder.1

/-- `s` is `r` without the block `x` and what descends from it. -/
structure Repository.Sheds (r s : Repository) (x : Hash) : Prop where
  gone : ∀ y, r.Descendant x y → s.findBlock y = .ok none
  kept : ∀ y, ¬ r.Descendant x y → s.findBlock y = r.findBlock y
  /-- No best-chain block is among those that go. -/
  spared : ∀ c n y, r.mainHashAt c n = .ok (some y) → ¬ r.Descendant x y
  best : ∀ c n, s.mainHashAt c n = r.mainHashAt c n
  listed : ∀ c n, ∃ before after, r.findHeight c n = .ok before ∧ s.findHeight c n = .ok after ∧
    (after.getD .empty).main = (before.getD .empty).main ∧
    ∀ y, (after.getD .empty).forks.contains y = true ↔
      (before.getD .empty).forks.contains y = true ∧ ¬ r.Descendant x y
  frame : ∀ k, (∀ y b, r.Descendant x y → r.findBlock y = .ok (some b) →
    k ≠ .block y ∧ k ≠ .height b.chain b.height) → s.value k = r.value k

theorem Repository.Keeps.value_dropForks {gone : Block → Prop} (hr : r.Keeps A)
    (hs : s.Keeps (A.dropForks gone)) {k : Key}
    (hk : ∀ f, A.fork f → gone f → k ≠ .block f.hash ∧ k ≠ .height f.chain f.height) :
    s.value k = r.value k := by
  have hsame {f : Block} (hnot : A.fork f → ¬ gone f) :
      (A.dropForks gone).fork f ↔ A.fork f := and_iff_left_of_imp hnot
  cases k with
  | block x =>
    apply hr.value_block hs
    rintro b rfl
    exact or_congr Iff.rfl (hsame fun hf hgone => (hk b hf hgone).1 rfl)
  | height c n =>
    apply hr.value_height hs rfl
    rintro f rfl rfl
    exact hsame fun hf hgone => (hk f hf hgone).2 rfl
  | links x => exact hr.value_links hs rfl x
  | chains => exact hs.chains.trans hr.chains.symm
  | tip c | tail c | span c pk => exact hr.value_onMain hs rfl rfl

theorem Repository.Keeps.sheds (hr : r.Keeps A) (hA : A.Sound K) (h : A.Rooted) (hb : A.fork b)
    (hs : s.Keeps (A.dropForks (Descends (A.forksOf b.chain) b))) : r.Sheds s b.hash := by
  have hB := Book.sound_dropForks hA (Descends (A.forksOf b.chain) b)
  have hfork {f : Block} (hf : Descends (A.forksOf b.chain) b f) : A.fork f :=
    (hf.fork ⟨hb, rfl⟩).1
  have hdescendant {f : Block} (hf : A.fork f) :
      r.Descendant b.hash f.hash ↔ Descends (A.forksOf b.chain) b f := by
    rw [hr.descendant_iff hA h hb]
    refine ⟨?_, fun hd => ⟨f, hd, rfl⟩⟩
    rintro ⟨a, ha, he⟩
    obtain rfl := K.hash_inj a f (hA.fork_known a (hfork ha)) (hA.fork_known f hf) he
    exact ha
  have hframe : ∀ k, (∀ y f, r.Descendant b.hash y → r.findBlock y = .ok (some f) →
      k ≠ .block y ∧ k ≠ .height f.chain f.height) → s.value k = r.value k := fun k hk =>
    hr.value_dropForks hs fun f hf hgone =>
      hk f.hash f ((hdescendant hf).2 hgone) (hr.findBlock_of_holds hA (.inr hf))
  have hspared {a : Block} {c : Bytes} (ha : a ∈ A.main c) : ¬ r.Descendant b.hash a.hash := by
    intro hd
    obtain ⟨f, hf, he⟩ := (hr.descendant_iff hA h hb).1 hd
    exact hA.hash_ne_of_fork ha (hfork hf) he.symm
  refine ⟨fun y hy => ?_, fun y hy => ?_, fun c n y hy => ?_, fun c n => ?_, fun c n => ?_, hframe⟩
  · obtain ⟨f, hf, rfl⟩ := (hr.descendant_iff hA h hb).1 hy
    refine hs.findBlock_none fun a ha he => ?_
    rcases ha with ha | ⟨ha, hkept⟩
    · exact hA.hash_ne_of_fork ha (hfork hf) he
    · obtain rfl := K.hash_inj a f (hA.fork_known a ha) (hA.fork_known f (hfork hf)) he
      exact hkept hf
  · refine Repository.load_congr (hframe _ fun z f hz _ => ⟨?_, by simp⟩) _
    rintro ⟨⟩
    exact hy hz
  · obtain ⟨a, ha, -, rfl⟩ := (hr.mainHashAt_eq_some_iff hA).1 hy
    exact hspared ha
  · rw [hr.mainHashAt_eq hA, hs.mainHashAt_eq hB]
    rfl
  · obtain ⟨before, hbefore, hl⟩ := hr.findHeight_eq c n
    obtain ⟨after, hafter, hl'⟩ := hs.findHeight_eq c n
    refine ⟨before, after, hbefore, hafter, ?_, fun y => ?_⟩
    · rw [hl.main_eq hA, hl'.main_eq hB]
      rfl
    · rw [hl'.forks, hl.forks]
      constructor
      · rintro ⟨f, ⟨hf, hkept⟩, hc, hn, rfl⟩
        exact ⟨⟨f, hf, hc, hn, rfl⟩, fun hd => hkept ((hdescendant hf).1 hd)⟩
      · rintro ⟨⟨f, hf, hc, hn, rfl⟩, hd⟩
        exact ⟨f, ⟨hf, fun hgone => hd ((hdescendant hf).2 hgone)⟩, hc, hn, rfl⟩

/-- After any history, every block that is stored and has a parent stands on it,
one height above. Deleting a block off the best chain succeeds, and takes just
this block and what descends from it. -/
theorem ForkCall.run_sheds {calls : List ForkCall} (h : Admissible (blocksFrom .empty calls)) :
    (∀ x b, (run calls).findBlock x = .ok (some b) → b.isGenesis = false →
      ∃ a, (run calls).findBlock b.parent = .ok (some a) ∧ a.chain = b.chain ∧
        a.height.toInt + 1 = b.height.toInt) ∧
    ∀ x b, (run calls).findBlock x = .ok (some b) →
      (run calls).mainHashAt b.chain b.height ≠ .ok (some x) →
        ∃ s, (Transition.deleteBlock x).run.run (run calls) = (.ok (), s) ∧
          (run calls).Sheds s x := by
  obtain ⟨A, hA, hr, -, hrooted⟩ := (upholds_of_admissible h).staged
  constructor
  · intro x b hx hgenesis
    obtain ⟨hb, rfl⟩ := (hr.findBlock_eq_some hA).1 hx
    obtain ⟨a, ha, hchain, hparent, hheight⟩ := hrooted.rests_of_holds hA hb hgenesis
    rw [hparent]
    exact ⟨a, hr.findBlock_of_holds hA ha, hchain, (Checked.toInt_succ? hheight).symm⟩
  · intro x b hx hoff
    obtain ⟨hb, rfl⟩ := (hr.findBlock_eq_some hA).1 hx
    have hfork : A.fork b := hb.resolve_left fun hm => by
      rw [hr.mainHashAt_eq hA, (Book.mainAt_eq_some hA).2 ⟨hm, rfl⟩] at hoff
      exact hoff rfl
    obtain ⟨_, s, hrun, hs⟩ := ends_deleteBlock hA hr hfork
    exact ⟨s, hrun, hr.sheds hA hrooted hfork hs⟩

end

section

attribute [local instance] checksum

/-- A note takes the place above the opening. The payment, which comes later, and
a note on it are left beside the chain. -/
def forkedCalls : List ForkCall :=
  [.node (.accept opening), .node (.accept rival), .node (.accept payment), .node (.accept heir)]

theorem admissible_forkedCalls : Admissible (ForkCall.blocksFrom .empty forkedCalls) := by
  have hblocks : ForkCall.blocksFrom .empty forkedCalls = [opening, rival, payment, heir] := rfl
  rw [hblocks]
  decide +kernel

theorem stored_forked : opening.stored = opening ∧ rival.stored = rival ∧
    payment.stored = payment ∧ heir.stored = heir := by decide +kernel

def rivalBook : Book := openingBook.pushTip rival

def forkedBook : Book := (rivalBook.addFork payment).addFork heir

section

variable {K : Registry} {A : Book} {r : Repository}

theorem keeps_accept_rival (hA : openingBook.Sound K) (hr : r.Keeps openingBook)
    (hb : K.known rival.stored) :
    rivalBook.Sound K ∧ ((Node.accept rival).run.run r).2.Keeps rivalBook := by
  have hchain : openingBook.main rival.chain = [opening] := by decide +kernel
  have hfits : TipFits rival (openingBook.main rival.chain) opening 600 := by
    rw [hchain]
    exact tipFits_rival
  have hsound := Book.sound_pushTip hA hb (Book.takesTip_stored.2 hfits.takesTip)
  have hkeeps : ((Node.accept rival).run.run r).2.Keeps (openingBook.pushTip rival.stored) :=
    ((Node.ends_accept_of_tipFits hA hr hb hfits).mono fun _ _ hs => hs.2).snd
  rw [stored_forked.2.1] at hsound hkeeps
  exact ⟨hsound, hkeeps⟩

theorem keeps_accept_fork (hA : A.Sound K) (hr : r.Keeps A) {b parent : Block}
    (hb : K.known b) (hstored : b.stored = b) (hplacement : A.placement b = .fork)
    (hparent : A.Holds parent) (hp : b.parent = parent.hash) {waited : Int64}
    (hfits : HeaderFits b parent waited) :
    (A.addFork b).Sound K ∧ ((Node.accept b).run.run r).2.Keeps (A.addFork b) := by
  have hfound : r.findBlock b.parent = .ok (some parent) := by
    rw [hp]
    exact hr.findBlock_of_holds hA hparent
  have hheader := validateHeader_eq_ok.2 ⟨hfound, waited, hfits⟩
  have hknown : K.known b.stored := hstored.symm ▸ hb
  have hends := (Node.ends_accept_fork hA hr hknown hplacement hheader).mono fun _ _ hs => hs.2
  rw [hstored] at hends
  exact ⟨Book.sound_addFork hA hb, hends.snd⟩

end

theorem keeps_forkedCalls :
    ∃ K, forkedBook.Sound K ∧ (ForkCall.run forkedCalls).Keeps forkedBook := by
  let K := admissible_forkedCalls.registry
  obtain ⟨hopening, hrival, hpayment, hheir⟩ := stored_forked
  have known {b : Block} (hb : b ∈ [opening, rival, payment, heir]) : K.known b.stored :=
    ⟨b, hb, rfl⟩
  have hvalid : validateGenesis opening = .ok () := by decide +kernel
  have h₀ := Book.sound_empty K
  have hr₁ := ((ends_accept_opening h₀ Repository.keeps_empty rfl hvalid (known (by simp))).mono
    fun _ _ hs => hs.2).snd
  have h₁ := Book.sound_pushTip h₀ (known (b := opening) (by simp)) (by decide +kernel)
  rw [hopening] at hr₁ h₁
  obtain ⟨h₂, hr₂⟩ := keeps_accept_rival h₁ hr₁ (known (by simp))
  have hbelow : rivalBook.Holds opening := .inl (by decide +kernel)
  obtain ⟨h₃, hr₃⟩ := keeps_accept_fork h₂ hr₂ (hpayment ▸ known (by simp)) hpayment
    (by decide +kernel) hbelow (by decide +kernel) tipFits_payment.header
  have hheld : (rivalBook.addFork payment).Holds payment :=
    (Book.holds_addFork _ _ _).2 (.inl rfl)
  obtain ⟨h₄, hr₄⟩ := keeps_accept_fork h₃ hr₃ (hheir ▸ known (by simp)) hheir
    (by decide +kernel) hheld (by decide +kernel) tipFits_heir.header
  exact ⟨K, h₄, hr₄⟩

/-- The payment stands on the opening, and goes with the note on it. -/
theorem ForkCall.run_sheds_payment : Admissible (blocksFrom .empty forkedCalls) ∧
    (run forkedCalls).findBlock payment.hash = .ok (some payment) ∧
    payment.isGenesis = false ∧
    (∃ a, (run forkedCalls).findBlock payment.parent = .ok (some a) ∧ a.chain = payment.chain ∧
      a.height.toInt + 1 = payment.height.toInt) ∧
    (run forkedCalls).mainHashAt payment.chain payment.height ≠ .ok (some payment.hash) ∧
    (run forkedCalls).Descendant payment.hash heir.hash ∧
    ∃ s, (Transition.deleteBlock payment.hash).run.run (run forkedCalls) = (.ok (), s) ∧
      (run forkedCalls).Sheds s payment.hash := by
  obtain ⟨hrests, hsheds⟩ := run_sheds admissible_forkedCalls
  obtain ⟨K, hA, hr⟩ := keeps_forkedCalls
  have hheir : forkedBook.Holds heir := (Book.holds_addFork _ _ _).2 (.inl rfl)
  have hpayment : forkedBook.Holds payment :=
    (Book.holds_addFork _ _ _).2 (.inr ((Book.holds_addFork _ _ _).2 (.inl rfl)))
  have hfound := hr.findBlock_of_holds hA hpayment
  have hgenesis : payment.isGenesis = false := by decide +kernel
  have hbeside : (run forkedCalls).mainHashAt payment.chain payment.height ≠
      .ok (some payment.hash) := by
    rw [hr.mainHashAt_eq hA]
    decide +kernel
  exact ⟨admissible_forkedCalls, hfound, hgenesis, hrests _ _ hfound hgenesis, hbeside,
    .child .self (hr.findBlock_of_holds hA hheir) (by decide +kernel),
    hsheds _ _ hfound hbeside⟩

end

end ChainState
