import ChainState.Proofs.Descent

/-!
# What expiry leaves behind

When the tail of a best chain expires, the forks at its height go with it, and
all that descends from them. A fork that stands on the tail itself is not among
these, and is left. So an expiry leaves no orphan just if nothing beside the
chain stands on the tail.
-/

set_option autoImplicit false

namespace ChainState

section

variable [Crypto] {K : Registry} {A B : Book} {r s : Repository} {b : Block}

namespace Book

/-- Every fork was set on a block, which may have gone since. -/
def Placed (K : Registry) (A : Book) : Prop := ∀ f, A.fork f → ∃ a, K.known a ∧ a.Under f

namespace Placed

theorem mono (h : A.Placed K) (hfork : ∀ f, B.fork f → A.fork f) : B.Placed K :=
  fun f hf => h f (hfork f hf)

theorem under (h : A.Placed K) {a f : Block} (hf : A.fork f) (ha : K.known a)
    (hparent : f.parent = a.hash) : a.Under f := by
  obtain ⟨below, hbelow, hunder⟩ := h f hf
  obtain rfl := K.hash_inj below a hbelow ha (hunder.1.symm.trans hparent)
  exact hunder

end Placed

theorem placed_empty : empty.Placed K := fun _ hf => hf.elim

end Book

theorem NodeCall.Advances.placed {call : NodeCall} (h : call.Advances K r A B) (hA : A.Sound K)
    (hplaced : A.Placed K) : B.Placed K := by
  intro f hf
  rcases h.rests_or_fork hA hf with ⟨a, ha, -, hunder⟩ | hf
  · exact ⟨a, hA.holds_known ha, hunder⟩
  · exact hplaced f hf

/-- What a node does, and the expiry of its oldest blocks. -/
inductive ExpiryCall where
  | node (call : NodeCall)
  | expire (block : Block)

namespace ExpiryCall

def blocks (r : Repository) : ExpiryCall → List Block
  | .node call => call.blocks r
  | .expire block => [block]

def perform (r : Repository) : ExpiryCall → Repository
  | .node call => call.perform r
  | .expire block => ((Transition.expire block).run.run r).2

def run (calls : List ExpiryCall) : Repository := calls.foldl perform .empty

def blocksFrom : Repository → List ExpiryCall → List Block
  | _, [] => []
  | r, call::calls => call.blocks r ++ blocksFrom (call.perform r) calls

theorem upholds (h : Upholds (Book.Placed K) K r) (call : ExpiryCall)
    (hcall : ∀ b ∈ call.blocks r, K.known b.stored) :
    Upholds (Book.Placed K) K (call.perform r) := by
  cases call with
  | node call =>
    apply h.perform call hcall
    · exact fun A b _ hplaced _ _ => hplaced.mono fun f hf => hf.1
    · exact fun A B hA _ hplaced _ hadvances => hadvances.placed hA hplaced
  | expire b =>
    obtain ⟨A, hA, hr, hplaced⟩ := h.staged
    apply h.leaves_local (Transition.amends_expire b).toLocal
    obtain ⟨hB, hs⟩ := ChainCall.perform_keeps hA hr (.expire b) fun x hx =>
      hcall x (by simpa [blocks, ChainCall.block?, eq_comm] using hx)
    refine ⟨A.after (.expire b), hB, hs, hplaced.mono fun f hf => ?_⟩
    rw [Book.after] at hf
    split at hf
    · exact hf.1.1
    · exact hf

theorem placed_beside {calls : List ExpiryCall} (h : Admissible (b::blocksFrom .empty calls)) :
    (∃ A : Book, A.Sound h.registry ∧ (run calls).Keeps A ∧ A.Placed h.registry) ∧
      h.registry.known b.stored := by
  have hknown : ∀ x ∈ blocksFrom .empty calls, h.registry.known x.stored := fun x hx =>
    ⟨x, List.mem_cons_of_mem _ hx, rfl⟩
  have hupholds := Upholds.foldl (fun _ _ _ => rfl) (fun _ call h hcall => upholds h call hcall)
    calls (upholds_empty h.registry Book.placed_empty) hknown
  exact ⟨hupholds.staged, b, by simp, rfl⟩

end ExpiryCall

namespace Book

/-- The block goes with the forks at the height of the tail `b`. -/
def Swept (A : Book) (b x : Block) : Prop :=
  ∃ f, A.rivals b f ∧ Descends (A.forksOf b.chain) f x

namespace Swept

variable {x f : Block}

theorem fork (h : A.Swept b x) : A.forksOf b.chain x := by
  obtain ⟨rival, hrival, hdescends⟩ := h
  exact hdescends.fork hrival.1

theorem child (h : A.Swept b x) (hf : A.forksOf b.chain f) (hunder : x.Under f) :
    A.Swept b f := by
  obtain ⟨rival, hrival, hdescends⟩ := h
  exact ⟨rival, hrival, .child hdescends hf hunder⟩

theorem not_of_under (hA : A.Sound K) (hb : b ∈ A.main b.chain) (hunder : b.Under f) :
    ¬ A.Swept b f := by
  rintro ⟨rival, hrival, hdescends⟩
  cases hdescends with
  | self =>
    have hlt := hunder.height_lt
    rw [hrival.2] at hlt
    omega
  | child habove _ hunder' =>
    have hfork := (habove.fork hrival.1).1
    exact hA.hash_ne_of_fork hb hfork (hunder.1.symm.trans hunder'.1)

end Swept

theorem fork_expire (f : Block) : (A.expire b).fork f ↔ A.fork f ∧ ¬ A.Swept b f := by
  constructor
  · rintro ⟨⟨hf, -⟩, hkept⟩
    exact ⟨hf, hkept⟩
  · rintro ⟨hf, hkept⟩
    exact ⟨⟨hf, fun hrival => hkept ⟨f, ⟨⟨hf, hrival.1⟩, hrival.2⟩, .self⟩⟩, hkept⟩

theorem holds_expire (hA : A.Sound K) (h : (A.main b.chain).head? = some b) (x : Block) :
    (A.expire b).Holds x ↔ A.Holds x ∧ x ≠ b ∧ ¬ A.Swept b x := by
  have hspared : x ∈ (A.popTail b).main x.chain → ¬ A.Swept b x := fun hm hswept =>
    hA.fork_off x hswept.fork.1 ((adds_popTail h x.chain x).2 (.inr hm))
  have hrival : A.rivals b x → A.Swept b x := fun hrival => ⟨x, hrival, .self⟩
  have hleft := holds_dropForks _ hspared
  rw [holds_popTail hA h] at hleft
  exact hleft.trans (by tauto)

end Book

namespace Repository

/-- The block `x` is stored in `r`, and not in `s`. -/
def Drops (r s : Repository) (x : Hash) : Prop :=
  (∃ b, r.findBlock x = .ok (some b)) ∧ s.findBlock x = .ok none

/-- The block `y` is stored beside the best chain of `chain`, and names `x` as
its parent. -/
def RestsOn (r : Repository) (chain : Bytes) (x y : Hash) : Prop :=
  ∃ b, r.findBlock y = .ok (some b) ∧ b.chain = chain ∧ b.parent = x ∧
    r.mainHashAt chain b.height ≠ .ok (some y)

/-- From `r` to `s`, no block of the chain that lies beside it loses its parent,
or an ancestor beside the chain, and stays. -/
structure Orphanless (r s : Repository) (chain : Bytes) : Prop where
  parents : ∀ x y, r.Drops s x → ¬ s.RestsOn chain x y
  ancestors : ∀ x y, r.Drops s x → Relation.TransGen (r.RestsOn chain) x y →
    s.findBlock y = .ok none

namespace Keeps

theorem restsOn_iff (hr : r.Keeps A) (hA : A.Sound K) {c : Bytes} {x y : Hash} :
    r.RestsOn c x y ↔ ∃ f, A.forksOf c f ∧ f.parent = x ∧ f.hash = y := by
  constructor
  · rintro ⟨f, hfound, rfl, hparent, hoff⟩
    obtain ⟨hheld, rfl⟩ := (hr.findBlock_eq_some hA).1 hfound
    have hfork : A.fork f := hheld.resolve_left fun hm =>
      hoff ((hr.mainHashAt_eq_some_iff hA).2 ⟨f, hm, rfl, rfl⟩)
    exact ⟨f, ⟨hfork, rfl⟩, hparent, rfl⟩
  · rintro ⟨f, ⟨hfork, rfl⟩, hparent, rfl⟩
    refine ⟨f, hr.findBlock_of_holds hA (.inr hfork), rfl, hparent, fun hmain => ?_⟩
    obtain ⟨a, ha, -, hhash⟩ := (hr.mainHashAt_eq_some_iff hA).1 hmain
    exact hA.hash_ne_of_fork ha hfork hhash

theorem drops_iff (hr : r.Keeps A) (hA : A.Sound K) (hs : s.Keeps B) (hB : B.Sound K) {x : Hash} :
    r.Drops s x ↔ ∃ a, A.Holds a ∧ ¬ B.Holds a ∧ a.hash = x := by
  constructor
  · rintro ⟨⟨a, hfound⟩, hnone⟩
    obtain ⟨hheld, rfl⟩ := (hr.findBlock_eq_some hA).1 hfound
    refine ⟨a, hheld, fun hstays => ?_, rfl⟩
    rw [hs.findBlock_of_holds hB hstays] at hnone
    cases hnone
  · rintro ⟨a, hheld, hgone, rfl⟩
    refine ⟨⟨a, hr.findBlock_of_holds hA hheld⟩, hs.findBlock_none fun x hx hhash => hgone ?_⟩
    obtain rfl := K.hash_inj x a (hB.holds_known hx) (hA.holds_known hheld) hhash
    exact hx

end Keeps

end Repository

structure Expired (K : Registry) (A : Book) (r s : Repository) (b : Block) : Prop where
  sound : A.Sound K
  before : r.Keeps A
  placed : A.Placed K
  tail : (A.main b.chain).head? = some b
  after : s.Keeps (A.expire b)

namespace Expired

variable (h : Expired K A r s b)
include h

theorem tail_mem : b ∈ A.main b.chain := List.mem_of_mem_head? h.tail

theorem tail_known : K.known b := h.sound.known _ b h.tail_mem

theorem sound_expire : (A.expire b).Sound K :=
  Book.sound_dropForks (Book.sound_popTail h.sound h.tail) _

theorem drops_iff {x : Hash} : r.Drops s x ↔ x = b.hash ∨ ∃ a, A.Swept b a ∧ a.hash = x := by
  rw [h.before.drops_iff h.sound h.after h.sound_expire]
  simp only [Book.holds_expire h.sound h.tail, not_and, not_not]
  constructor
  · rintro ⟨a, hheld, hgone, rfl⟩
    by_cases ha : a = b
    · exact .inl (by rw [ha])
    · exact .inr ⟨a, hgone hheld ha, rfl⟩
  · rintro (rfl | ⟨a, hswept, rfl⟩)
    · exact ⟨b, .inl h.tail_mem, fun _ hne => absurd rfl hne, rfl⟩
    · exact ⟨a, .inr hswept.fork.1, fun _ _ => hswept, rfl⟩

theorem swept_of_transGen {x y : Hash} (hx : ∃ a, A.Swept b a ∧ a.hash = x)
    (hy : Relation.TransGen (r.RestsOn b.chain) x y) : ∃ a, A.Swept b a ∧ a.hash = y := by
  have step {x y : Hash} (hx : ∃ a, A.Swept b a ∧ a.hash = x) (hy : r.RestsOn b.chain x y) :
      ∃ a, A.Swept b a ∧ a.hash = y := by
    obtain ⟨a, hswept, rfl⟩ := hx
    obtain ⟨f, hf, hparent, rfl⟩ := (h.before.restsOn_iff h.sound).1 hy
    have hknown := h.sound.fork_known a hswept.fork.1
    exact ⟨f, hswept.child hf (h.placed.under hf.1 hknown hparent), rfl⟩
  induction hy with
  | single hxy => exact step hx hxy
  | tail _ hyz ih => exact step ih hyz

theorem restsOn_of_restsOn {x y : Hash} (hy : s.RestsOn b.chain x y) : r.RestsOn b.chain x y := by
  obtain ⟨f, ⟨hf, hchain⟩, hparent⟩ := (h.after.restsOn_iff h.sound_expire).1 hy
  exact (h.before.restsOn_iff h.sound).2
    ⟨f, ⟨((Book.fork_expire f).1 hf).1, hchain⟩, hparent⟩

theorem restsOn_tail_iff {y : Hash} :
    s.RestsOn b.chain b.hash y ↔ r.RestsOn b.chain b.hash y := by
  refine ⟨h.restsOn_of_restsOn, fun hy => ?_⟩
  obtain ⟨f, ⟨hf, hchain⟩, hparent, rfl⟩ := (h.before.restsOn_iff h.sound).1 hy
  have hunder := h.placed.under hf h.tail_known hparent
  have hkept := Book.Swept.not_of_under h.sound h.tail_mem hunder
  exact (h.after.restsOn_iff h.sound_expire).2
    ⟨f, ⟨(Book.fork_expire f).2 ⟨hf, hkept⟩, hchain⟩, hparent, rfl⟩

theorem findBlock_of_drops {x y : Hash} (hx : r.Drops s x) (hne : x ≠ b.hash)
    (hy : Relation.TransGen (r.RestsOn b.chain) x y) : s.findBlock y = .ok none := by
  have hswept := h.swept_of_transGen ((h.drops_iff.1 hx).resolve_left hne) hy
  exact (h.drops_iff.2 (.inr hswept)).2

theorem eq_tail_of_orphan {x y : Hash} (hx : r.Drops s x) (hy : s.RestsOn b.chain x y) :
    x = b.hash := by
  by_contra hne
  have hgone := h.findBlock_of_drops hx hne (.single (h.restsOn_of_restsOn hy))
  obtain ⟨f, hfound, -⟩ := hy
  rw [hgone] at hfound
  cases hfound

theorem orphanless_iff :
    r.Orphanless s b.chain ↔ ∀ y, ¬ r.RestsOn b.chain b.hash y := by
  constructor
  · intro horphanless y hy
    exact horphanless.parents b.hash y (h.drops_iff.2 (.inl rfl)) (h.restsOn_tail_iff.2 hy)
  · intro hbare
    refine ⟨fun x y hx hy => ?_, fun x y hx hy => ?_⟩
    · obtain rfl := h.eq_tail_of_orphan hx hy
      exact hbare y (h.restsOn_tail_iff.1 hy)
    · refine h.findBlock_of_drops hx ?_ hy
      rintro rfl
      obtain ⟨z, hz, -⟩ := Relation.TransGen.head'_iff.1 hy
      exact hbare z hz

end Expired

theorem ExpiryCall.expired {calls : List ExpiryCall}
    (h : Admissible (b::blocksFrom .empty calls))
    (hexpire : (Transition.expire b).run.run (run calls) = (.ok (), s)) :
    ∃ A, Expired h.registry A (run calls) s b.stored := by
  obtain ⟨⟨A, hA, hr, hplaced⟩, hb⟩ := placed_beside h
  have htail : (A.main b.chain).head? = some b.stored := by
    by_contra hne
    cases hexpire.symm.trans (Transition.refuses_expire hA hr hb hne)
  obtain ⟨_, s', hrun, hs⟩ := Transition.ends_expire hA hr htail
  cases hexpire.symm.trans hrun
  exact ⟨A, hA, hr, hplaced, by simpa using htail, hs⟩

/-- After any history, an expiry that succeeds takes the tail and leaves every
fork that stands on it. Of all other blocks that go, it leaves no descendant.
So it leaves no orphan just if no fork stood on the tail. -/
theorem ExpiryCall.run_expire_orphanless_iff {calls : List ExpiryCall}
    (h : Admissible (b::blocksFrom .empty calls))
    (hexpire : (Transition.expire b).run.run (run calls) = (.ok (), s)) :
    ((run calls).Orphanless s b.chain ↔ ∀ y, ¬ (run calls).RestsOn b.chain b.hash y) ∧
    (run calls).Drops s b.hash ∧
    (∀ y, s.RestsOn b.chain b.hash y ↔ (run calls).RestsOn b.chain b.hash y) ∧
    (∀ x y, (run calls).Drops s x → s.RestsOn b.chain x y → x = b.hash) ∧
    ∀ x y, (run calls).Drops s x → x ≠ b.hash →
      Relation.TransGen ((run calls).RestsOn b.chain) x y → s.findBlock y = .ok none := by
  obtain ⟨A, hexpired⟩ := expired h hexpire
  rw [← b.chain_stored, ← b.hash_stored]
  exact ⟨hexpired.orphanless_iff, hexpired.drops_iff.2 (.inl rfl),
    fun _ => hexpired.restsOn_tail_iff, fun _ _ => hexpired.eq_tail_of_orphan,
    fun _ _ => hexpired.findBlock_of_drops⟩

end

section

attribute [local instance] checksum

/-- The opening and the rival are the chain. The payment stands on the opening,
beside the rival, and the heir on the payment. -/
def agingCalls : List ExpiryCall :=
  [.node (.accept opening), .node (.accept rival), .node (.accept payment), .node (.accept heir)]

/-- The opening has expired, and the rival is the tail. -/
def agedCalls : List ExpiryCall := agingCalls ++ [.expire opening]

def agedBook : Book := forkedBook.expire opening

theorem admissible_expiring {blocks : List Block} (h : blocks ⊆ [opening, rival, payment, heir]) :
    Admissible blocks :=
  admissible_forkedCalls.mono h

theorem admissible_agingCalls :
    Admissible (opening::ExpiryCall.blocksFrom .empty agingCalls) := by
  have hblocks : ExpiryCall.blocksFrom .empty agingCalls = [opening, rival, payment, heir] := rfl
  exact admissible_expiring (by simp [hblocks])

theorem admissible_agedCalls : Admissible (rival::ExpiryCall.blocksFrom .empty agedCalls) := by
  have hblocks : ExpiryCall.blocksFrom .empty agedCalls =
      [opening, rival, payment, heir, opening] := rfl
  exact admissible_expiring (by simp [hblocks])

theorem fork_forkedBook (f : Block) : forkedBook.fork f ↔ f = payment ∨ f = heir := by
  constructor
  · rintro ((hf | ⟨rfl, -⟩) | ⟨rfl, -⟩)
    · exact hf.1.1.elim
    · exact .inl rfl
    · exact .inr rfl
  · rintro (rfl | rfl)
    · exact .inl (.inr ⟨rfl, by decide +kernel⟩)
    · exact .inr ⟨rfl, by decide +kernel⟩

theorem fork_agedBook (f : Block) : agedBook.fork f ↔ f = payment ∨ f = heir := by
  rw [agedBook, Book.fork_expire, fork_forkedBook]
  refine and_iff_left_of_imp fun _ => ?_
  rintro ⟨x, ⟨⟨hx, -⟩, hheight⟩, -⟩
  rcases (fork_forkedBook x).1 hx with rfl | rfl
  · exact absurd hheight (by decide +kernel)
  · exact absurd hheight (by decide +kernel)

theorem tail_forkedBook : (forkedBook.main opening.chain).head? = some opening.stored := by
  decide +kernel

theorem tail_agedBook : (agedBook.main rival.chain).head? = some rival.stored := by
  decide +kernel

theorem keeps_agedCalls :
    ∃ K, agedBook.Sound K ∧ (ExpiryCall.run agedCalls).Keeps agedBook := by
  obtain ⟨K, hA, hr⟩ := keeps_forkedCalls
  have hends := Transition.ends_expire hA hr tail_forkedBook
  have htail := tail_forkedBook
  rw [stored_forked.1] at hends htail
  exact ⟨K, Book.sound_dropForks (Book.sound_popTail hA htail) _, hends.snd⟩

/-- Nothing stands on the rival. When it expires, the payment goes, and the heir
with it. -/
theorem ExpiryCall.run_expire_orphanless_rival :
    Admissible (rival::blocksFrom .empty agedCalls) ∧
    ∃ s, (Transition.expire rival).run.run (run agedCalls) = (.ok (), s) ∧
      (∀ y, ¬ (run agedCalls).RestsOn rival.chain rival.hash y) ∧
      (run agedCalls).Orphanless s rival.chain ∧
      (run agedCalls).Drops s payment.hash ∧ s.findBlock heir.hash = .ok none := by
  obtain ⟨K, hA, hr⟩ := keeps_agedCalls
  obtain ⟨_, s, hrun, hs⟩ := Transition.ends_expire hA hr tail_agedBook
  have htail := tail_agedBook
  rw [stored_forked.2.1] at hs htail
  obtain ⟨hiff, -, -, -, hgone⟩ := run_expire_orphanless_iff admissible_agedCalls hrun
  have hbare : ∀ y, ¬ (run agedCalls).RestsOn rival.chain rival.hash y := by
    intro y hy
    obtain ⟨f, ⟨hf, -⟩, hparent, -⟩ := (hr.restsOn_iff hA).1 hy
    rcases (fork_agedBook f).1 hf with rfl | rfl
    · exact absurd hparent (by decide +kernel)
    · exact absurd hparent (by decide +kernel)
  have hpayment := (fork_agedBook payment).2 (.inl rfl)
  have hdrops : (run agedCalls).Drops s payment.hash := by
    have hswept : agedBook.Swept rival payment :=
      ⟨payment, ⟨⟨hpayment, by decide +kernel⟩, by decide +kernel⟩, .self⟩
    have hsound := Book.sound_dropForks (Book.sound_popTail hA htail)
    exact (hr.drops_iff hA hs (hsound _)).2 ⟨payment, .inr hpayment,
      fun hheld => ((Book.holds_expire hA htail payment).1 hheld).2.2 hswept, rfl⟩
  have hrests : (run agedCalls).RestsOn rival.chain payment.hash heir.hash :=
    (hr.restsOn_iff hA).2 ⟨heir, ⟨(fork_agedBook heir).2 (.inr rfl), by decide +kernel⟩,
      by decide +kernel, rfl⟩
  exact ⟨admissible_agedCalls, s, hrun, hbare, hiff.2 hbare, hdrops,
    hgone _ _ hdrops (by decide +kernel) (.single hrests)⟩

/-- The payment stands on the opening, and is left without it when it expires. -/
theorem ExpiryCall.run_expire_orphans_payment :
    Admissible (opening::blocksFrom .empty agingCalls) ∧
    ∃ s, (Transition.expire opening).run.run (run agingCalls) = (.ok (), s) ∧
      (run agingCalls).Drops s opening.hash ∧
      s.RestsOn opening.chain opening.hash payment.hash ∧
      ¬ (run agingCalls).Orphanless s opening.chain := by
  obtain ⟨K, hA, hr⟩ := keeps_forkedCalls
  obtain ⟨_, s, hrun, -⟩ := Transition.ends_expire hA hr tail_forkedBook
  obtain ⟨B, hexpired⟩ := expired admissible_agingCalls hrun
  rw [stored_forked.1] at hexpired
  have hrests : (run agingCalls).RestsOn opening.chain opening.hash payment.hash :=
    (hr.restsOn_iff hA).2 ⟨payment, ⟨(fork_forkedBook payment).2 (.inl rfl), by decide +kernel⟩,
      by decide +kernel, rfl⟩
  exact ⟨admissible_agingCalls, s, hrun, hexpired.drops_iff.2 (.inl rfl),
    hexpired.restsOn_tail_iff.2 hrests,
    fun horphanless => hexpired.orphanless_iff.1 horphanless _ hrests⟩

end

end ChainState
