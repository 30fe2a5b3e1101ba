import ChainState.Proofs.ForkChoice
import ChainState.Proofs.History

/-!
# Histories of a node

A node opens chains, mines, takes in blocks and switches branches. What it
keeps is sound, and its best chains obey every law at every moment, in what is
staged and in what a failure would fall back to.
-/

set_option autoImplicit false

namespace ChainState

variable [Crypto]

inductive NodeCall where
  | openChain (miner : Miner) (timestamp balance : Int64)
  | mine (miner : Miner) (t : Transaction) (now : Int64)
  | accept (block : Block)
  | submit (block : Block)
  | switch (branch : List Block)
  | flush

namespace NodeCall

def blocks (r : Repository) : NodeCall → List Block
  | .openChain miner timestamp balance => [miner.genesis timestamp balance]
  | .mine miner t now => (miner.build r t now).toOption.toList
  | .accept block | .submit block => [block]
  | .switch branch => branch
  | .flush => []

def perform (r : Repository) : NodeCall → Repository
  | .openChain miner timestamp balance =>
    ((Node.openChain miner timestamp balance).run.run r).2
  | .mine miner t now => ((Node.mine miner t now).run.run r).2
  | .accept block => ((Node.accept block).run.run r).2
  | .submit block => ((Node.submit block).run.run r).2
  | .switch branch => (Branch.switch r branch).2
  | .flush => (Transition.flush.run.run r).2

def run (calls : List NodeCall) : Repository := calls.foldl perform .empty

def blocksFrom : Repository → List NodeCall → List Block
  | _, [] => []
  | r, call::calls => call.blocks r ++ blocksFrom (call.perform r) calls

theorem blocksFrom_append (r : Repository) (calls more : List NodeCall) :
    blocksFrom r (calls ++ more) =
      blocksFrom r calls ++ blocksFrom (calls.foldl perform r) more := by
  induction calls generalizing r with
  | nil => rfl
  | cons call calls ih =>
    rw [List.cons_append, blocksFrom, blocksFrom, ih, List.append_assoc, List.foldl_cons]

end NodeCall

/-- The repository keeps a sound book whose best chains obey the law. -/
def Accounted (P : List Block → Prop) (K : Registry) (r : Repository) : Prop :=
  ∃ A : Book, A.Sound K ∧ r.Keeps A ∧ ∀ c, P (A.main c)

/-- What a node keeps between two calls. -/
structure Steady (P : List Block → Prop) (K : Registry) (r : Repository) : Prop where
  bare : r.overlays = []
  staged : Accounted P K r
  durable : Accounted P K r.discardChanges

/-- The repository keeps a sound book with a property, in what is staged and in
what a failure would fall back to. -/
structure Upholds (Q : Book → Prop) (K : Registry) (r : Repository) : Prop where
  bare : r.overlays = []
  staged : ∃ A : Book, A.Sound K ∧ r.Keeps A ∧ Q A
  durable : ∃ A : Book, A.Sound K ∧ r.discardChanges.Keeps A ∧ Q A

def NodeCall.Opens (P : List Block → Prop) : NodeCall → Prop
  | .openChain miner timestamp balance => P [(miner.genesis timestamp balance).stored]
  | _ => True

variable {P : List Block → Prop} {Q : Book → Prop} {K : Registry} {A : Book} {r s : Repository}
  {b : Block}

theorem steady_iff : Steady P K r ↔ Upholds (fun A => ∀ c, P (A.main c)) K r :=
  ⟨fun h => ⟨h.bare, h.staged, h.durable⟩, fun h => ⟨h.bare, h.staged, h.durable⟩⟩

theorem upholds_empty (K : Registry) (hQ : Q .empty) : Upholds Q K .empty where
  bare := rfl
  staged := ⟨.empty, Book.sound_empty K, Repository.keeps_empty, hQ⟩
  durable := ⟨.empty, Book.sound_empty K, Repository.keeps_empty, hQ⟩

theorem steady_empty (hP : Law P) (K : Registry) : Steady P K .empty :=
  steady_iff.2 (upholds_empty K fun _ => hP.nil)

theorem Repository.Keeps.ends_flush_all (hr : r.Keeps A) (hA : A.Sound K) :
    Transition.Ends Transition.flush r fun _ s =>
      Flushed (fun b => (A.mainAt b.chain b.height).map Block.hash = some b.hash)
        r.handDownAll s := by
  apply Transition.ends_flush
  intro b
  rw [isMain, (hr.congr r.value_handDownAll).mainHashAt_eq hA]
  rfl

theorem Repository.Keeps.ends_flush (hr : r.Keeps A) (hA : A.Sound K) (hbare : r.overlays = []) :
    Transition.Ends Transition.flush r fun _ s => s.overlays = [] ∧
      (∀ k, s.value k = r.value k) ∧ ∀ k, s.discardChanges.value k = r.value k := by
  have hopen : r.handDownAll.overlays = [] := by simp [handDownAll, hbare]
  refine (hr.ends_flush_all hA).mono fun _ s hs => ?_
  refine ⟨hs.overlays.trans hopen, fun k => ?_, fun k => ?_⟩
  · exact (hs.value k).trans (r.value_handDownAll k)
  · exact (hs.durable hopen k).trans (r.value_handDownAll k)

open Transition

namespace Upholds

theorem amend (h : Upholds Q K r) (f : Batch → Batch)
    (hf : ∃ A : Book, A.Sound K ∧ (r.amend f).Keeps A ∧ Q A) : Upholds Q K (r.amend f) where
  bare := Repository.overlays_amend h.bare f
  staged := hf
  durable := by
    rw [Repository.discardChanges_amend h.bare]
    exact h.durable

theorem discarded (h : Upholds Q K r) : Upholds Q K r.discardChanges where
  bare := Repository.overlays_discardChanges h.bare
  staged := h.durable
  durable := by
    rw [Repository.discardChanges_discardChanges h.bare]
    exact h.durable

theorem ends_flush (h : Upholds Q K r) : Ends flush r fun _ s => Upholds Q K s := by
  obtain ⟨A, hA, hr, hQ⟩ := h.staged
  refine (hr.ends_flush hA h.bare).mono ?_
  intro _ s ⟨hbare, hvalue, hdurable⟩
  exact ⟨hbare, ⟨A, hA, hr.congr hvalue, hQ⟩, ⟨A, hA, hr.congr hdurable, hQ⟩⟩

theorem leaves_local {ε α : Type} {t : ExceptT ε (StateM Repository) α} (h : Upholds Q K r)
    (ht : Local t) (hs : Leaves t r fun s => ∃ A : Book, A.Sound K ∧ s.Keeps A ∧ Q A) :
    Leaves t r (Upholds Q K) := by
  obtain ⟨f, hf⟩ := ht r
  rw [Leaves, hf] at hs ⊢
  exact h.amend f hs

end Upholds

theorem leaves_guarded {ε α : Type} {t : ExceptT ε (StateM Repository) α}
    {u : ExceptT ε (StateM Repository) Unit} {mid post : Repository → Prop}
    (ht : Leaves t r mid) (hu : ∀ s, mid s → Leaves u s post)
    (hmid : ∀ s, mid s → post s.discardChanges) (hpost : ∀ s, post s → post s.discardChanges) :
    Leaves (do
      try
        let x ← t
        u
        return x
      catch e =>
        modify Repository.discardChanges
        throw e) r post := by
  rw [Leaves, run_guarded]
  rcases h : t.run.run r with ⟨_ | x, s⟩
  · exact hmid s (ht.of_run h)
  · dsimp only
    rcases h' : u.run.run s with ⟨_ | _, s'⟩
    · exact hpost s' ((hu s (ht.of_run h)).of_run h')
    · exact (hu s (ht.of_run h)).of_run h'

theorem ends_guarded {ε α : Type} {t : ExceptT ε (StateM Repository) α}
    {u : ExceptT ε (StateM Repository) Unit} {mid post : α → Repository → Prop}
    (ht : Ends t r mid) (hu : ∀ x s, mid x s → Ends u s fun _ => post x) :
    Ends (do
      try
        let x ← t
        u
        return x
      catch e =>
        modify Repository.discardChanges
        throw e) r post := by
  obtain ⟨x, s, hrun, hmid⟩ := ht
  obtain ⟨_, s', hflush, hpost⟩ := hu x s hmid
  refine ⟨x, s', ?_, hpost⟩
  rw [run_guarded, hrun]
  dsimp only
  rw [hflush]

theorem Upholds.leaves_settle {α : Type} {t : Transition α} (ht : Leaves t r (Upholds Q K)) :
    Leaves (Node.settle t) r (Upholds Q K) :=
  leaves_guarded ht (fun _ hs => hs.ends_flush.leaves) (fun _ hs => hs.discarded)
    fun _ hs => hs.discarded

theorem Node.local_accept (block : Block) : Local (Node.accept block) := by
  apply local_bind (Node.local_ofCheck _)
  intro placement
  cases placement with
  | extendsTip =>
    apply local_bind (Node.local_ofCheck _)
    intro _
    apply local_bind (Node.local_ofTransition (amends_connectTip block).toLocal)
    exact fun _ => local_pure _
  | extendsTail =>
    apply local_bind (Node.local_ofCheck _)
    intro _
    apply local_bind (Node.local_ofTransition (amends_connectTail block).toLocal)
    exact fun _ => local_pure _
  | fork =>
    show Local (do
      discard (Node.ofCheck fun r => validateHeader r block)
      Node.ofTransition .repository (saveFork block)
      return Placement.fork)
    rw [discard_eq_bind, bind_assoc]
    apply local_bind (Node.local_ofCheck _)
    intro _
    apply local_bind (Node.local_ofTransition (amends_saveFork block).toLocal)
    exact fun _ => local_pure _
  | stale => exact local_pure _

namespace NodeCall

def Opening : NodeCall → Block → Prop
  | .openChain miner timestamp balance, b => b = miner.genesis timestamp balance
  | _, b => validateGenesis b = .ok ()

/-- What a call may make of the book. -/
inductive Advances (K : Registry) (call : NodeCall) (r : Repository) (A : Book) : Book → Prop
  | same : Advances K call r A A
  | opened {b : Block} (hopening : call.Opening b) (hempty : A.main b.chain = []) :
      Advances K call r A (A.pushTip b.stored)
  | entered {b : Block} (h : Enters r b) : Advances K call r A (A.pushTip b.stored)
  | setAside {b parent : Block} (hparent : A.Holds parent) (hchain : parent.chain = b.chain)
      (hunder : parent.Under b) : Advances K call r A (A.addFork b.stored)
  | switched {branch lo hi : List Block} {fork : Block} {c : Bytes}
      (hknown : ∀ b ∈ branch, K.known b.stored)
      (h : Branch.Replaces A.main branch c lo fork hi) :
      Advances K call r A (Branch.rebased A branch c lo fork hi)

/-- What a call leaves keeps a book that the call may make of `A`. -/
def Leads (K : Registry) (call : NodeCall) (r : Repository) (A : Book) (s : Repository) : Prop :=
  ∃ B : Book, B.Sound K ∧ s.Keeps B ∧ call.Advances K r A B

variable {call : NodeCall}

theorem Leads.congr (h : call.Leads K r A s) {u : Repository}
    (hu : ∀ k, u.value k = s.value k) : call.Leads K r A u := by
  obtain ⟨B, hB, hs, hadvances⟩ := h
  exact ⟨B, hB, hs.congr hu, hadvances⟩

theorem leads_refl (hA : A.Sound K) (hr : r.Keeps A) : call.Leads K r A r :=
  ⟨A, hA, hr, .same⟩

theorem leads_connectTip (hA : A.Sound K) (hr : r.Keeps A) (hb : K.known b.stored)
    (hnew : A.TakesTip b → call.Advances K r A (A.pushTip b.stored)) :
    Leaves (connectTip b) r (call.Leads K r A) := by
  by_cases h : A.TakesTip b
  · refine ((ends_connectTip hA hr hb h).mono fun _ s hs => ?_).leaves
    exact ⟨_, Book.sound_pushTip hA hb (Book.takesTip_stored.2 h), hs, hnew h⟩
  · obtain ⟨fault, hrefuses⟩ := refuses_connectTip hA hr h
    rw [Leaves, hrefuses.snd]
    exact leads_refl hA hr

theorem leads_saveFork (hA : A.Sound K) (hr : r.Keeps A) (hb : K.known b.stored)
    {parent : Block} (hheader : validateHeader r b = .ok parent) :
    Leaves (saveFork b) r (call.Leads K r A) := by
  obtain ⟨hfound, waited, hfits⟩ := validateHeader_eq_ok.1 hheader
  obtain ⟨hparent, hhash⟩ := (hr.findBlock_eq_some hA).1 hfound
  exact ((ends_saveFork hA hr hb).mono fun _ _ hs => ⟨_, Book.sound_addFork hA hb, hs,
    .setAside hparent hfits.chain ⟨hhash.symm, hfits.height⟩⟩).leaves

theorem Advances.of_checkAtTip (hr : r.Keeps A)
    (hopening : ∀ b, validateGenesis b = .ok () → call.Opening b)
    (h : Node.checkAtTip r b = .ok ()) : call.Advances K r A (A.pushTip b.stored) := by
  simp only [Node.checkAtTip, Check.bind_eq_ok, Check.ofQuery_eq_ok] at h
  obtain ⟨tip, htip, h⟩ := h
  split at h
  · exact .entered (.validated h)
  · next hopen =>
    rw [hr.tipHash_eq, Except.ok.injEq] at htip
    refine .opened (hopening b h) ?_
    rw [← htip, not_or, Option.isSome_map, Option.not_isSome_iff_eq_none] at hopen
    exact List.getLast?_eq_none_iff.1 hopen.1

theorem not_takesTail (hbegins : ∀ c, ∀ first ∈ (A.main c).head?, first.isGenesis = true)
    (hb : K.known b.stored) : ¬ A.TakesTail b := by
  rintro ⟨tail, htail, hparent, -⟩
  have hopen := hbegins b.chain tail htail
  rw [Block.isGenesis, hparent, FixedBytes.isZero, beq_iff_eq, ← Block.hash_stored] at hopen
  exact K.hash_ne_zero _ hb hopen

/-- A block is accepted at the tip or beside the chain, or is taken below the
tail. -/
theorem leaves_accept {post : Repository → Prop} (hA : A.Sound K) (hr : r.Keeps A)
    (hopening : ∀ b, validateGenesis b = .ok () → call.Opening b) (hb : K.known b.stored)
    (hleads : ∀ s, call.Leads K r A s → post s)
    (htail : A.TakesTail b → ∀ s : Repository, s.Keeps (A.pushTail b.stored) → post s) :
    Leaves (Node.accept b) r post := by
  have hsame : post r := hleads r (leads_refl hA hr)
  apply Node.leaves_ofCheck_bind hsame
  intro placement _
  cases placement with
  | extendsTip =>
    apply Node.leaves_ofCheck_bind hsame
    intro _ hcheck
    have hconnect : Leaves (connectTip b) r (call.Leads K r A) :=
      leads_connectTip hA hr hb fun _ => .of_checkAtTip hr hopening hcheck
    exact (Node.leaves_ofTransition (hconnect.mono hleads)).bind fun _ s hs => hs
  | extendsTail =>
    apply Node.leaves_ofCheck_bind hsame
    intro _ _
    have hconnect : Leaves (connectTail b) r post := by
      by_cases h : A.TakesTail b
      · exact (ends_connectTail hA hr hb h).leaves.mono (htail h)
      · obtain ⟨fault, hrefuses⟩ := refuses_connectTail hA hr h
        rw [Leaves, hrefuses.snd]
        exact hsame
    exact (Node.leaves_ofTransition hconnect).bind fun _ s hs => hs
  | fork =>
    show Leaves (do
      discard (Node.ofCheck fun r => validateHeader r b)
      Node.ofTransition .repository (saveFork b)
      return Placement.fork) r post
    rw [discard_eq_bind, bind_assoc]
    apply Node.leaves_ofCheck_bind hsame
    intro parent hheader
    have hsave := (leads_saveFork hA hr hb hheader).mono hleads
    exact (Node.leaves_ofTransition hsave).bind fun _ s hs => hs
  | stale => exact hsame

theorem leads_accept (hA : A.Sound K) (hr : r.Keeps A)
    (hbegins : ∀ c, ∀ first ∈ (A.main c).head?, first.isGenesis = true)
    (hopening : ∀ b, validateGenesis b = .ok () → call.Opening b) (hb : K.known b.stored) :
    Leaves (Node.accept b) r (call.Leads K r A) :=
  leaves_accept hA hr hopening hb (fun _ hs => hs) fun h =>
    absurd h (not_takesTail hbegins hb)

theorem leaves_openChain {post : Repository → Prop} (hr : r.Keeps A) {miner : Miner}
    {timestamp balance : Int64} (hsame : A.main miner.chain ≠ [] → post r)
    (hopen : A.main miner.chain = [] →
      Leaves (Node.settle (connectTip (miner.genesis timestamp balance))) r post) :
    Leaves (Node.openChain miner timestamp balance) r post := by
  have hq : (Node.ofTransition Node.OpenError.repository
      (query (·.tipHash miner.chain))).run.run r =
        (.ok ((A.main miner.chain).getLast?.map Block.hash), r) :=
    Node.run_ofTransition_ok (run_query_ok (hr.tipHash_eq miner.chain))
  rw [Leaves, Node.openChain, run_bind_ok hq]
  cases hlast : (A.main miner.chain).getLast? with
  | some tip => exact hsame (List.ne_nil_of_mem (List.mem_of_getLast? hlast))
  | none =>
    have hsettled := hopen (List.getLast?_eq_none_iff.1 hlast)
    exact (Node.leaves_ofTransition hsettled).bind fun _ s hs => hs

theorem leaves_mine {post : Repository → Prop} {miner : Miner} {t : Transaction} {now : Int64}
    (hsame : post r)
    (hbuilt : ∀ b, miner.build r t now = .ok b →
      Leaves (Node.settle (connectTip b)) r post) :
    Leaves (Node.mine miner t now) r post := by
  apply Node.leaves_ofCheck_bind hsame
  intro b hbuild
  exact (Node.leaves_ofTransition (hbuilt b hbuild)).bind fun _ s hs => hs

theorem leads_switch (hA : A.Sound K) (hr : r.Keeps A) (branch : List Block)
    (hknown : ∀ b ∈ branch, K.known b.stored) :
    ∃ f, perform r (.switch branch) = r.amend f ∧
      Leads K (.switch branch) r A (perform r (.switch branch)) := by
  have hsame : ∃ f, r = r.amend f ∧ Leads K (.switch branch) r A r :=
    ⟨id, r.amend_id.symm, leads_refl hA hr⟩
  rw [perform]
  by_cases hs : (Branch.switch r branch).1 = .ok .switched
  · obtain ⟨c, lo, fork, hi, hreplaces, hsound, f, he, hkeeps⟩ :=
      Branch.keeps_of_switch hA hr hknown hs
    exact ⟨_, he.trans (r.handDown_amend_track f), _, hsound, hkeeps, .switched hknown hreplaces⟩
  · rw [Branch.snd_switch_of_ne hs]
    exact hsame

end NodeCall

theorem law_rebased {branch lo hi : List Block} {fork : Block} {c : Bytes} (hP : Law P)
    (hA : A.Sound K) (ha : ∀ c, P (A.main c)) (hknown : ∀ b ∈ branch, K.known b.stored)
    (h : Branch.Replaces A.main branch c lo fork hi) (d : Bytes) :
    P ((Branch.rebased A branch c lo fork hi).main d) := by
  rw [Branch.main_rebased h.onChain]
  split
  · obtain ⟨hgrows, hstored⟩ := Branch.grows_below hA h.split
    have hbelow : P ((lo ++ [fork]).map Block.stored) := by
      rw [hstored]
      have hwhole := ha c
      rw [h.split, List.append_cons] at hwhole
      exact hP.left _ _ hwhole
    have hall := Branch.law_of_passes hP hgrows hknown h.onChain h.passes hbelow
    rwa [List.map_append, hstored] at hall
  · exact ha d

theorem law_pushTip (ha : ∀ c, P (A.main c)) (hnew : P (A.main b.chain ++ [b.stored]))
    (d : Bytes) : P ((A.pushTip b.stored).main d) := by
  rw [Book.main_pushTip]
  split
  · rw [Block.chain_stored]
    exact hnew
  · exact ha d

theorem NodeCall.Advances.lawful {call : NodeCall} {B : Book} (h : call.Advances K r A B)
    (hP : Law P) (hA : A.Sound K) (hr : r.Keeps A) (ha : ∀ c, P (A.main c))
    (hopens : call.Opens P) : ∀ c, P (B.main c) := by
  cases h with
  | same => exact ha
  | @opened b hopening hempty =>
    apply law_pushTip ha
    rw [hempty]
    cases call with
    | openChain miner timestamp balance =>
      obtain rfl : b = miner.genesis timestamp balance := hopening
      exact hopens
    | _ => exact hP.opens b hopening
  | entered h => exact law_pushTip ha (hP.joins hA hr h (ha _))
  | setAside => exact ha
  | switched hknown hreplaces => exact law_rebased hP hA ha hknown hreplaces

theorem Upholds.perform (h : Upholds Q K r) (call : NodeCall)
    (hcall : ∀ b ∈ call.blocks r, K.known b.stored)
    (htail : ∀ (A : Book) (b : Block), A.Sound K → Q A → K.known b.stored → A.TakesTail b →
      Q (A.pushTail b.stored))
    (hstep : ∀ A B : Book, A.Sound K → r.Keeps A → Q A → B.Sound K → call.Advances K r A B →
      Q B) : Upholds Q K (call.perform r) := by
  obtain ⟨A, hA, hr, hQ⟩ := h.staged
  have hbears {s : Repository} (hs : call.Leads K r A s) :
      ∃ B : Book, B.Sound K ∧ s.Keeps B ∧ Q B := by
    obtain ⟨B, hB, hkeeps, hadvances⟩ := hs
    exact ⟨B, hB, hkeeps, hstep A B hA hr hQ hB hadvances⟩
  have hleads {ε α : Type} {t : ExceptT ε (StateM Repository) α} (ht : Local t)
      (hleads : Leaves t r (call.Leads K r A)) : Leaves t r (Upholds Q K) :=
    h.leaves_local ht (hbears hleads)
  have hconnect {b : Block} (hb : b ∈ call.blocks r)
      (hnew : call.Advances K r A (A.pushTip b.stored)) :
      Leaves (Node.settle (connectTip b)) r (Upholds Q K) :=
    leaves_settle (hleads (amends_connectTip b).toLocal
      (NodeCall.leads_connectTip hA hr (hcall b hb) fun _ => hnew))
  -- a block below the tail is none of the advances, and has its own hypothesis
  have haccept {b : Block} (hb : b ∈ call.blocks r)
      (hopening : ∀ x, validateGenesis x = .ok () → call.Opening x) :
      Leaves (Node.accept b) r (Upholds Q K) :=
    h.leaves_local (Node.local_accept b)
      (NodeCall.leaves_accept hA hr hopening (hcall b hb) (fun _ => hbears) fun htakes s hs =>
        ⟨_, Book.sound_pushTail hA (hcall b hb) (Book.takesTail_stored.2 htakes), hs,
          htail A b hA hQ (hcall b hb) htakes⟩)
  cases call with
  | openChain miner timestamp balance =>
    apply NodeCall.leaves_openChain hr fun _ => h
    intro hempty
    exact hconnect (by simp [NodeCall.blocks]) (.opened rfl hempty)
  | mine miner t now =>
    apply NodeCall.leaves_mine h
    intro b hbuild
    exact hconnect (by simp [NodeCall.blocks, hbuild, Except.toOption])
      (.entered (.built miner t now hbuild))
  | accept b => exact haccept (by simp [NodeCall.blocks]) fun _ hx => hx
  | submit b =>
    exact leaves_guarded (haccept (by simp [NodeCall.blocks]) fun _ hx => hx)
      (fun _ hs => Node.leaves_ofTransition hs.ends_flush.leaves) (fun _ hs => hs.discarded)
      fun _ hs => hs.discarded
  | switch branch =>
    obtain ⟨f, hf, hleads⟩ := NodeCall.leads_switch hA hr branch hcall
    rw [hf] at hleads ⊢
    exact h.amend f (hbears hleads)
  | flush => exact h.ends_flush.leaves

/-- What every call upholds is upheld by a history of calls, of whatever kind. -/
theorem Upholds.foldl {Call : Type} {perform : Repository → Call → Repository}
    {blocks : Repository → Call → List Block} {blocksFrom : Repository → List Call → List Block}
    (hblocks : ∀ r call calls,
      blocksFrom r (call::calls) = blocks r call ++ blocksFrom (perform r call) calls)
    (hstep : ∀ r call, Upholds Q K r → (∀ b ∈ blocks r call, K.known b.stored) →
      Upholds Q K (perform r call))
    (calls : List Call) (h : Upholds Q K r) (hcalls : ∀ b ∈ blocksFrom r calls, K.known b.stored) :
    Upholds Q K (calls.foldl perform r) := by
  induction calls generalizing r with
  | nil => exact h
  | cons call calls ih =>
    apply ih
    · exact hstep r call h fun b hb => hcalls b (by simp [hblocks, hb])
    · exact fun b hb => hcalls b (by simp [hblocks, hb])

theorem Steady.perform (hP : Law P) (h : Steady P K r) (call : NodeCall)
    (hcall : ∀ b ∈ call.blocks r, K.known b.stored) (hopens : call.Opens P) :
    Steady P K (call.perform r) := by
  apply steady_iff.2
  apply (steady_iff.1 h).perform call hcall
  · exact fun A b _ ha hb htakes =>
      absurd htakes (NodeCall.not_takesTail (fun c => hP.begins _ (ha c)) hb)
  · exact fun A B hA hr ha _ hadvances => hadvances.lawful hP hA hr ha hopens

/-- Where the block fits. -/
def Book.placement (A : Book) (b : Block) : Placement :=
  if (A.mainAt b.chain b.height).map Block.hash = some b.hash then .stale
  else
    match (A.main b.chain).getLast?, (A.main b.chain).head? with
    | some tip, some tail =>
      if b.parent = tip.hash then .extendsTip
      else if tail.parent = b.hash then .extendsTail
      else if b.height < tail.height then .stale
      else .fork
    | _, _ => .extendsTip

theorem Repository.Keeps.placement_eq (hr : r.Keeps A) (hA : A.Sound K) (b : Block) :
    r.placement b = .ok (A.placement b) := by
  simp only [Repository.placement, Book.placement, hr.mainHashAt_eq hA, hr.tip_eq hA,
    hr.tail_eq hA, bind, Except.bind]
  split
  · rfl
  · cases hm : A.main b.chain with
    | nil => rfl
    | cons tail rest =>
      obtain ⟨tip, htip⟩ : ∃ tip, (tail::rest).getLast? = some tip :=
        ⟨_, List.getLast?_eq_some_getLast (List.cons_ne_nil tail rest)⟩
      simp only [htip, List.head?_cons]
      split_ifs <;> rfl

namespace Node

variable (hA : A.Sound K) (hr : r.Keeps A) (hb : K.known b.stored)
include hA hr hb

theorem ends_accept_tip (hplacement : A.placement b = .extendsTip) (htakes : A.TakesTip b)
    (hcheck : checkAtTip r b = .ok ()) :
    Ends (accept b) r fun placement s =>
      placement = .extendsTip ∧ s.Keeps (A.pushTip b.stored) := by
  have hplace : Check.ofQuery (r.placement b) = .ok .extendsTip := by
    rw [hr.placement_eq hA, hplacement]
    rfl
  rw [accept, ends_ofCheck_bind hplace]
  refine (ends_ofCheck_bind hcheck).2 (ends_bind.2 ?_)
  exact (ends_ofTransition (ends_connectTip hA hr hb htakes)).mono fun _ s hs =>
    ends_pure.2 ⟨rfl, hs⟩

/-- A block that fits on the tip joins the chain. -/
theorem ends_accept_of_tipFits {parent : Block} {waited : Int64}
    (h : TipFits b (A.main b.chain) parent waited) :
    Ends (accept b) r fun placement s =>
      placement = .extendsTip ∧ s.Keeps (A.pushTip b.stored) := by
  have hplacement : A.placement b = .extendsTip := by
    have hfree : A.mainAt b.chain b.height = none :=
      List.find?_eq_none.2 fun x hx => by simpa using h.takesTip.free hA x hx
    cases htail : (A.main b.chain).head? <;> simp [Book.placement, hfree, h.tip, htail, h.link]
  have hcheck : checkAtTip r b = .ok () := by
    simp only [checkAtTip, hr.tipHash_eq, h.tip]
    exact h.validateBlock hA hr
  exact ends_accept_tip hA hr hb hplacement h.takesTip hcheck

theorem ends_accept_fork (hplacement : A.placement b = .fork) {parent : Block}
    (hheader : validateHeader r b = .ok parent) :
    Ends (accept b) r fun placement s => placement = .fork ∧ s.Keeps (A.addFork b.stored) := by
  have hplace : Check.ofQuery (r.placement b) = .ok .fork := by
    rw [hr.placement_eq hA, hplacement]
    rfl
  rw [accept, ends_ofCheck_bind hplace]
  show Ends (do
    discard (ofCheck fun r => validateHeader r b)
    ofTransition .repository (saveFork b)
    return Placement.fork) r _
  rw [discard_eq_bind, bind_assoc, ends_ofCheck_bind hheader]
  simp only [pure_bind]
  rw [ends_bind]
  exact (ends_ofTransition (ends_saveFork hA hr hb)).mono fun _ s hs => ends_pure.2 ⟨rfl, hs⟩

end Node

theorem Transition.Local.ends_bare {ε α : Type} {t : ExceptT ε (StateM Repository) α}
    {post : α → Repository → Prop} (ht : Local t) (hbare : r.overlays = []) (h : Ends t r post) :
    Ends t r fun x s => s.overlays = [] ∧ post x s := by
  obtain ⟨x, s, hrun, hs⟩ := h
  obtain ⟨f, hf⟩ := ht r
  rw [hrun] at hf
  obtain rfl : s = r.amend f := hf
  exact ⟨x, _, hrun, Repository.overlays_amend hbare f, hs⟩

section

variable {post : Placement → Prop} (hA : A.Sound K) (hbare : r.overlays = [])
include hA hbare

theorem Node.leaves_settle {t : Transition Unit} (ht : Local t)
    (h : Ends t r fun _ s => s.Keeps A) :
    Leaves (settle t) r fun s => s.overlays = [] ∧ s.Keeps A := by
  refine (ends_guarded (ht.ends_bare hbare h) fun _ s hs => ?_).leaves
  exact (hs.2.ends_flush hA hs.1).mono fun _ _ hu => ⟨hu.1, hs.2.congr hu.2.1⟩

theorem Node.ends_submit (h : Ends (accept b) r fun x s => post x ∧ s.Keeps A) :
    Ends (submit b) r fun x s => post x ∧ s.overlays = [] ∧ s.Keeps A := by
  refine ends_guarded ((local_accept b).ends_bare hbare h) fun x s hs => ?_
  exact (ends_ofTransition (hs.2.2.ends_flush hA hs.1)).mono fun _ _ hu =>
    ⟨hs.2.1, hu.1, hs.2.2.congr hu.2.1⟩

end

section

open Check

variable (hA : A.Sound K) (hr : r.Keeps A) (hempty : A.main b.chain = [])
include hA hr hempty

theorem ends_accept_opening (hvalid : validateGenesis b = .ok ()) (hb : K.known b.stored) :
    Ends (Node.accept b) r fun placement s =>
      placement = .extendsTip ∧ s.Keeps (A.pushTip b.stored) := by
  have hplacement : A.placement b = .extendsTip := by
    simp [Book.placement, Book.mainAt, hempty]
  have hcheck : Node.checkAtTip r b = .ok () := by
    simp [Node.checkAtTip, ofQuery, Except.mapError, hr.tipHash_eq, hempty,
      (validateGenesis_eq_ok.1 hvalid).isGenesis, hvalid, bind, Except.bind]
  exact Node.ends_accept_tip hA hr hb hplacement (by simp [Book.TakesTip, hempty]) hcheck

/-- A block that may open a chain is its best chain once it is submitted. -/
theorem ends_submit_opening (hvalid : validateGenesis b = .ok ()) (hb : K.known b.stored)
    (hbare : r.overlays = []) : Ends (Node.submit b) r fun placement s =>
      placement = .extendsTip ∧ s.overlays = [] ∧ s.Keeps (A.pushTip b.stored) :=
  Node.ends_submit (Book.sound_pushTip hA hb (by simp [Book.TakesTip, hempty])) hbare
    (ends_accept_opening hA hr hempty hvalid hb)

end

namespace NodeCall

theorem foldl_steady (hP : Law P) (calls : List NodeCall) (h : Steady P K r)
    (hcalls : ∀ b ∈ blocksFrom r calls, K.known b.stored) (hopens : ∀ call ∈ calls, call.Opens P) :
    Steady P K (calls.foldl perform r) := by
  induction calls generalizing r with
  | nil => exact h
  | cons call calls ih =>
    apply ih
    · apply h.perform hP call
      · exact fun b hb => hcalls b (by simp [blocksFrom, hb])
      · exact hopens call (by simp)
    · exact fun b hb => hcalls b (by simp [blocksFrom, hb])
    · exact fun c hc => hopens c (by simp [hc])

/-- Every history whose blocks are admissible leaves best chains that obey the
law, if those that the node opens by itself do. -/
theorem steady_of_law {calls : List NodeCall} {more : List Block} (hP : Law P)
    (h : Admissible (blocksFrom .empty calls ++ more)) (hopens : ∀ call ∈ calls, call.Opens P) :
    Steady P h.registry (run calls) :=
  foldl_steady hP calls (steady_empty hP _) (fun b hb => ⟨b, List.mem_append_left more hb, rfl⟩)
    hopens

theorem accounted_of_law {calls : List NodeCall} (hP : Law P)
    (h : Admissible (blocksFrom .empty calls)) (hopens : ∀ call ∈ calls, call.Opens P) :
    ∃ K, Accounted P K (run calls) := by
  rw [← List.append_nil (blocksFrom .empty calls)] at h
  exact ⟨h.registry, (steady_of_law hP h hopens).staged⟩

theorem opens_audited (call : NodeCall) : call.Opens Audited := by
  cases call with
  | openChain miner timestamp balance => exact miner.audited_genesis timestamp balance
  | _ => trivial

theorem steady_of_admissible {calls : List NodeCall} {more : List Block}
    (h : Admissible (blocksFrom .empty calls ++ more)) :
    Steady Audited h.registry (run calls) :=
  steady_of_law law_audited h fun call _ => call.opens_audited

theorem keeps_of_admissible {calls : List NodeCall} (h : Admissible (blocksFrom .empty calls)) :
    ∃ K A, A.Sound K ∧ (run calls).Keeps A := by
  rw [← List.append_nil (blocksFrom .empty calls)] at h
  obtain ⟨A, hA, hr, -⟩ := (steady_of_admissible h).staged
  exact ⟨h.registry, A, hA, hr⟩

end NodeCall

end ChainState
