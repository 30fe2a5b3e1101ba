import ChainState.Proofs.Descent
import ChainState.Proofs.NodeSteps
import ChainState.Proofs.Values

/-!
# Submitting a block again

What a node answers to a block depends on the book that it keeps and on nothing
else. A block that was accepted has its place in the book, and finds that place
taken when it is submitted again; a block that was refused left the book as it
was, and is refused for the same reason.
-/

set_option autoImplicit false

namespace ChainState

/-- The answer to a block that was put in its place before. -/
def Placement.again : Placement → Placement
  | .fork => .fork
  | .extendsTip | .extendsTail | .stale => .stale

open Transition

section

variable [Crypto] {ε α β : Type} {r s : Repository}

def AnswersAlike (t : ExceptT ε (StateM Repository) α) (r s : Repository) : Prop :=
  (t.run.run s).1 = (t.run.run r).1

theorem answersAlike_ofCheck {check : Repository → Check α} {f : α → Node.Action ValidationError β}
    (hcheck : check s = check r) (hf : ∀ x, AnswersAlike (f x) r s) :
    AnswersAlike (Node.ofCheck check >>= f) r s := by
  have hr := Node.run_ofCheck check r
  have hs := Node.run_ofCheck check s
  rw [hcheck] at hs
  cases hx : check r with
  | error e =>
    rw [hx] at hr hs
    rw [AnswersAlike, run_bind_error hr, run_bind_error hs]
  | ok x =>
    rw [hx] at hr hs
    rw [AnswersAlike, run_bind_ok hr, run_bind_ok hs]
    exact hf x

theorem answersAlike_ofTransition {blocks : List Block} {error : RepositoryError → ε}
    {t : Transition α} (ht : Transition.Amends blocks t) (hvalue : ∀ k, s.value k = r.value k)
    (y : β) : AnswersAlike (Node.ofTransition error t >>= fun _ => pure y) r s := by
  obtain ⟨x, f, -, -, hrun⟩ := ht r
  have hr := hrun r fun _ => rfl
  have hs := hrun s hvalue
  cases x with
  | error e =>
    rw [AnswersAlike, run_bind_error (Node.run_ofTransition_error hr),
      run_bind_error (Node.run_ofTransition_error hs)]
  | ok x =>
    rw [AnswersAlike, run_bind_ok (Node.run_ofTransition_ok hr),
      run_bind_ok (Node.run_ofTransition_ok hs)]
    rfl

end

section

variable [Crypto] {K : Registry} {A B : Book} {r s : Repository} {b : Block}

section

variable (hA : A.Sound K) (hr : r.Keeps A) (hs : s.Keeps A)
include hr hs

theorem validateHeader_eq_of_keeps (b : Block) : validateHeader s b = validateHeader r b := by
  have hfound : s.findBlock b.parent = r.findBlock b.parent :=
    Repository.byValue_findBlock _ _ _ (hr.value_eq hs)
  simp only [validateHeader, hfound]

include hA

theorem validateBlock_eq_of_keeps (b : Block) : validateBlock s b = validateBlock r b := by
  have hstates : postStates s b.miner b.transaction = postStates r b.miner b.transaction := by
    rw [hr.postStates_eq hA, hs.postStates_eq hA]
  simp only [validateBlock, validateHeader_eq_of_keeps hr hs, hr.tipHash_eq, hs.tipHash_eq,
    hr.effectivePower_eq hA, hs.effectivePower_eq hA, hstates]

theorem answersAlike_accept (b : Block) : AnswersAlike (Node.accept b) r s := by
  have hvalue := hr.value_eq hs
  apply answersAlike_ofCheck
  · rw [hr.placement_eq hA, hs.placement_eq hA]
  intro placement
  cases placement with
  | extendsTip =>
    apply answersAlike_ofCheck
    · simp only [Node.checkAtTip, hr.tipHash_eq, hs.tipHash_eq,
        validateBlock_eq_of_keeps hA hr hs]
    · exact fun _ => answersAlike_ofTransition (amends_connectTip b) hvalue _
  | extendsTail =>
    apply answersAlike_ofCheck
    · rfl
    · exact fun _ => answersAlike_ofTransition (amends_connectTail b) hvalue _
  | fork =>
    show AnswersAlike (do
      discard (Node.ofCheck fun r => validateHeader r b)
      Node.ofTransition .repository (saveFork b)
      return Placement.fork) r s
    rw [discard_eq_bind, bind_assoc]
    apply answersAlike_ofCheck
    · exact validateHeader_eq_of_keeps hr hs b
    · exact fun _ => answersAlike_ofTransition (amends_saveFork b) hvalue _
  | stale => rfl

end

/-- What becomes of the book when a block is accepted at a place. -/
inductive Book.Accepts (A : Book) (b : Block) : Placement → Book → Prop
  | tip (h : A.TakesTip b) : Accepts A b .extendsTip (A.pushTip b.stored)
  | tail (h : A.TakesTail b) : Accepts A b .extendsTail (A.pushTail b.stored)
  | fork {parent : Block} {waited : Int64} (hplacement : A.placement b = .fork)
      (hparent : A.Holds parent) (hhash : parent.hash = b.parent)
      (hheader : HeaderFits b parent waited) : Accepts A b .fork (A.addFork b.stored)
  | stale (hplacement : A.placement b = .stale) : Accepts A b .stale A

theorem Book.Accepts.sound {placement : Placement} (h : A.Accepts b placement B) (hA : A.Sound K)
    (hb : K.known b.stored) : B.Sound K := by
  cases h with
  | tip h => exact sound_pushTip hA hb (takesTip_stored.2 h)
  | tail h => exact sound_pushTail hA hb (takesTail_stored.2 h)
  | fork => exact sound_addFork hA hb
  | stale => exact hA

theorem Node.ends_ofTransition_iff {ε α : Type} {error : RepositoryError → ε} {t : Transition α}
    {post : α → Repository → Prop} : Ends (ofTransition error t) r post ↔ Ends t r post := by
  refine ⟨fun h => ?_, ends_ofTransition⟩
  rcases hrun : t.run.run r with ⟨e | x, s⟩
  · obtain ⟨_, _, hends, -⟩ := h
    rw [run_ofTransition_error hrun] at hends
    cases hends
  · obtain ⟨y, u, hends, hpost⟩ := h
    rw [run_ofTransition_ok hrun] at hends
    cases hends
    exact ⟨x, s, hrun, hpost⟩

theorem Node.ends_checked {α : Type} {check : Repository → Check α} {t : Transition Unit}
    {placement : Placement} {post : Placement → Repository → Prop} :
    Ends (do
      let _ ← ofCheck check
      ofTransition .repository t
      return placement) r post ↔
      (∃ x, check r = .ok x) ∧ Ends t r fun _ s => post placement s := by
  cases hcheck : check r with
  | error e =>
    have hrun : (ofCheck check).run.run r = (.error e, r) := by rw [run_ofCheck, hcheck]
    rw [Ends, run_bind_error hrun]
    constructor
    · rintro ⟨_, _, hend, -⟩
      cases hend
    · rintro ⟨⟨_, hpass⟩, -⟩
      cases hpass
  | ok x =>
    rw [ends_ofCheck_bind hcheck, ends_bind, ends_ofTransition_iff]
    simp [ends_pure]

theorem accepts_of_run (hA : A.Sound K) (hr : r.Keeps A) (hb : K.known b.stored)
    {placement : Placement} (h : (Node.accept b).run.run r = (.ok placement, s)) :
    ∃ B, A.Accepts b placement B ∧ s.Keeps B := by
  have hends : Ends (Node.accept b) r fun x u => x = placement ∧ u = s := ⟨_, _, h, rfl, rfl⟩
  have hplace : Check.ofQuery (r.placement b) = .ok (A.placement b) := by
    rw [hr.placement_eq hA]
    rfl
  rw [Node.accept, Node.ends_ofCheck_bind hplace] at hends
  cases hplacement : A.placement b with
  | extendsTip =>
    rw [hplacement] at hends
    obtain ⟨-, hconnect⟩ := Node.ends_checked.1 hends
    by_cases htakes : A.TakesTip b
    · obtain ⟨_, u, hrun, rfl, rfl⟩ := hconnect
      exact ⟨_, .tip htakes, (ends_connectTip hA hr hb htakes).leaves.of_run hrun⟩
    · obtain ⟨fault, hrefuses⟩ := refuses_connectTip hA hr htakes
      exact absurd hconnect hrefuses.not_ends
  | extendsTail =>
    rw [hplacement] at hends
    obtain ⟨-, hconnect⟩ := Node.ends_checked.1 hends
    by_cases htakes : A.TakesTail b
    · obtain ⟨_, u, hrun, rfl, rfl⟩ := hconnect
      exact ⟨_, .tail htakes, (ends_connectTail hA hr hb htakes).leaves.of_run hrun⟩
    · obtain ⟨fault, hrefuses⟩ := refuses_connectTail hA hr htakes
      exact absurd hconnect hrefuses.not_ends
  | fork =>
    rw [hplacement] at hends
    simp only [discard_eq_bind, bind_assoc] at hends
    obtain ⟨⟨parent, hheader⟩, hsave⟩ := Node.ends_checked.1 hends
    obtain ⟨hfound, waited, hfits⟩ := validateHeader_eq_ok.1 hheader
    obtain ⟨hparent, hhash⟩ := (hr.findBlock_eq_some hA).1 hfound
    obtain ⟨_, u, hrun, rfl, rfl⟩ := hsave
    exact ⟨_, .fork hplacement hparent hhash hfits,
      (ends_saveFork hA hr hb).leaves.of_run hrun⟩
  | stale =>
    rw [hplacement] at hends
    obtain ⟨rfl, rfl⟩ := ends_pure.1 hends
    exact ⟨A, .stale hplacement, hr⟩

theorem Book.addFork_addFork (A : Book) (b : Block) : (A.addFork b).addFork b = A.addFork b := by
  simp only [addFork, or_assoc, or_self]

theorem Book.placement_of_mem (hA : A.Sound K) (h : b.stored ∈ A.main b.chain) :
    A.placement b = .stale := by
  have hat : A.mainAt b.chain b.height = some b.stored :=
    (mainAt_eq_some hA).2 ⟨h, b.height_stored⟩
  rw [placement, if_pos (by rw [hat, Option.map_some, Block.hash_stored])]

theorem ends_accept_stale (hA : A.Sound K) (hr : r.Keeps A) (h : A.placement b = .stale) :
    Ends (Node.accept b) r fun placement s => placement = .stale ∧ s = r := by
  have hplace : Check.ofQuery (r.placement b) = .ok .stale := by
    rw [hr.placement_eq hA, h]
    rfl
  rw [Node.accept, Node.ends_ofCheck_bind hplace]
  exact ends_pure.2 ⟨rfl, rfl⟩

theorem Book.Accepts.ends_again {placement : Placement} (h : A.Accepts b placement B)
    (hA : A.Sound K) (hb : K.known b.stored) (hs : s.Keeps B) :
    Ends (Node.accept b) s fun x u => x = placement.again ∧ u.Keeps B := by
  have hB := h.sound hA hb
  have hstale (hplacement : B.placement b = .stale) :
      Ends (Node.accept b) s fun x u => x = .stale ∧ u.Keeps B :=
    (ends_accept_stale hB hs hplacement).mono fun x u hu => ⟨hu.1, hu.2 ▸ hs⟩
  cases h with
  | tip => exact hstale (placement_of_mem hB (by simp))
  | tail => exact hstale (placement_of_mem hB (by simp))
  | fork hplacement hparent hhash hheader =>
    have hfound := (hs.findBlock_eq_some hB).2
      ⟨(A.holds_addFork _ _).2 (.inr hparent), hhash⟩
    have hsame := Node.ends_accept_fork hB hs hb hplacement
      (validateHeader_eq_ok.2 ⟨hfound, _, hheader⟩)
    rwa [addFork_addFork] at hsame
  | stale hplacement => exact hstale hplacement

/-- A submission is answered with `x` and leaves a settled node with the book `B`. -/
structure Submits (b : Block) (r : Repository) (x : Except ValidationError Placement)
    (B : Book) : Prop where
  answer : ((Node.submit b).run.run r).1 = x
  keeps : ((Node.submit b).run.run r).2.Keeps B
  settled : Settled ((Node.submit b).run.run r).2

theorem Submits.of_run {x : Except ValidationError Placement} {u : Repository}
    (hrun : (Node.submit b).run.run r = (x, u)) (hu : u.Keeps B) (hsettled : Settled u) :
    Submits b r x B where
  answer := by rw [hrun]
  keeps := by rwa [hrun]
  settled := by rwa [hrun]

namespace Settled

variable (h : Settled r)
include h

theorem submits_refused (hr : r.Keeps A) {e : ValidationError}
    (haccept : (Node.accept b).run.run r = (.error e, s)) : Submits b r (.error e) A := by
  obtain ⟨f, hf⟩ := Node.local_accept b r
  rw [haccept] at hf
  obtain rfl : s = r.amend f := hf
  have hrun : (Node.submit b).run.run r = (.error e, r.discardChanges) := by
    rw [Node.submit, run_guarded, haccept]
    dsimp only
    rw [Repository.discardChanges_amend h.bare]
  exact .of_run hrun (hr.congr h.durable) h.discarded

theorem submits_accepted (hB : B.Sound K) {placement : Placement}
    (haccept : (Node.accept b).run.run r = (.ok placement, s)) (hs : s.Keeps B) :
    Submits b r (.ok placement) B := by
  obtain ⟨f, hf⟩ := Node.local_accept b r
  rw [haccept] at hf
  obtain rfl : s = r.amend f := hf
  obtain ⟨_, u, hflush, hbare, hvalue, hdurable⟩ :=
    hs.ends_flush hB (Repository.overlays_amend h.bare f)
  have hrun : (Node.submit b).run.run r = (.ok placement, u) := by
    rw [Node.submit, run_guarded, haccept]
    dsimp only
    rw [Node.run_ofTransition_ok hflush]
  exact .of_run hrun (hs.congr hvalue) ⟨hbare, fun k => (hdurable k).trans (hvalue k).symm⟩

theorem submits_next (hA : A.Sound K) (hr : r.Keeps A) (hb : K.known b.stored)
    {main : List Block} (hmain : A.main b.chain = main) {parent : Block} {waited : Int64}
    (hfits : TipFits b main parent waited) :
    (A.pushTip b.stored).Sound K ∧ Submits b r (.ok .extendsTip) (A.pushTip b.stored) := by
  subst hmain
  have hsound := Book.sound_pushTip hA hb (Book.takesTip_stored.2 hfits.takesTip)
  obtain ⟨_, _, haccept, rfl, hs⟩ := Node.ends_accept_of_tipFits hA hr hb hfits
  exact ⟨hsound, h.submits_accepted hsound haccept hs⟩

/-- The second submission finds the book that the first left, and leaves it. -/
theorem submits_again (hA : A.Sound K) (hr : r.Keeps A) (hb : K.known b.stored) :
    ∃ x B, Submits b r x B ∧
      Submits b ((Node.submit b).run.run r).2 (x.map Placement.again) B := by
  rcases haccept : (Node.accept b).run.run r with ⟨e | placement, s⟩
  · have hfirst : Submits b r (.error e) A := h.submits_refused hr haccept
    refine ⟨_, A, hfirst, ?_⟩
    have hsame := answersAlike_accept hA hr hfirst.keeps b
    rw [AnswersAlike, haccept] at hsame
    rcases hagain : (Node.accept b).run.run ((Node.submit b).run.run r).2 with ⟨x, u⟩
    rw [hagain] at hsame
    obtain rfl : x = .error e := hsame
    exact hfirst.settled.submits_refused hfirst.keeps hagain
  · obtain ⟨B, haccepts, hs⟩ := accepts_of_run hA hr hb haccept
    have hB := haccepts.sound hA hb
    have hfirst : Submits b r (.ok placement) B := h.submits_accepted hB haccept hs
    obtain ⟨_, u, hagain, rfl, hu⟩ := haccepts.ends_again hA hb hfirst.keeps
    exact ⟨_, B, hfirst, hfirst.settled.submits_accepted hB hagain hu⟩

end Settled

theorem submits_opening (hb : K.known b.stored) (hvalid : validateGenesis b = .ok ()) :
    (Book.empty.pushTip b.stored).Sound K ∧
      ∃ placement, Submits b .empty (.ok placement) (Book.empty.pushTip b.stored) := by
  have hempty := Book.sound_empty K
  have hsound := Book.sound_pushTip hempty hb (fun t ht => by cases ht)
  obtain ⟨placement, _, haccept, -, hs⟩ :=
    ends_accept_opening hempty Repository.keeps_empty rfl hvalid hb
  exact ⟨hsound, placement, Settled.empty.submits_accepted hsound haccept hs⟩

namespace NodeStep

/-- After whatever steps, a block that is submitted twice leaves the second time
every record as it was after the first. A block that was put on a best chain, or
was stale, is stale; one that was set aside is set aside again; and one that was
refused is refused with the same error. -/
theorem run_resubmits {steps : List NodeStep} {b : Block}
    (h : Admissible (blocks (steps ++ [.submit b]))) :
    let first := (Node.submit b).run.run (run steps)
    let second := (Node.submit b).run.run first.2
    second.1 = first.1.map Placement.again ∧ ∀ k, second.2.value k = first.2.value k := by
  obtain ⟨⟨hsteady, hsettled⟩, hknown⟩ :=
    between_before law_audited h fun _ _ call _ => call.opens_audited
  obtain ⟨A, hA, hr, -⟩ := hsteady.staged
  have hb : h.registry.known b.stored :=
    hknown b (by simp [calls, NodeCall.blocksFrom, NodeCall.blocks])
  obtain ⟨x, B, hfirst, hsecond⟩ := hsettled.submits_again hA hr hb
  exact ⟨by rw [hsecond.answer, hfirst.answer], hfirst.keeps.value_eq hsecond.keeps⟩

end NodeStep

end

section

attribute [local instance] checksum

theorem submits_rival {K : Registry} (hopening : K.known opening.stored)
    (hrival : K.known rival.stored) : rivalBook.Sound K ∧
      Submits rival (NodeStep.run [.submit opening]) (.ok .extendsTip) rivalBook := by
  obtain ⟨hsound, placement, hopened⟩ : openingBook.Sound K ∧
      ∃ placement, Submits opening .empty (.ok placement) openingBook := by
    have h := submits_opening hopening (by decide +kernel)
    rwa [stored_forked.1] at h
  have hjoined := hopened.settled.submits_next hsound hopened.keeps hrival
    (by decide +kernel) tipFits_rival
  rwa [stored_forked.2.1] at hjoined

/-- A chain is opened and grows, and a payment is put beside it twice. -/
theorem NodeStep.run_resubmits_payment :
    Admissible (blocks ([.submit opening, .submit rival] ++ [.submit payment])) ∧
    let first := (Node.submit payment).run.run (run [.submit opening, .submit rival])
    let second := (Node.submit payment).run.run first.2
    first.1 = .ok .fork ∧ second.1 = .ok .fork ∧ ∀ k, second.2.value k = first.2.value k := by
  have h : Admissible (blocks ([.submit opening, .submit rival] ++ [.submit payment])) := by
    decide +kernel
  have known {b : Block} (hb : b ∈ [opening, rival, payment]) : h.registry.known b.stored :=
    ⟨b, hb, rfl⟩
  have hfirst : ((Node.submit payment).run.run (run [.submit opening, .submit rival])).1 =
      .ok .fork := by
    obtain ⟨hsound, hjoined⟩ := submits_rival (known (by simp)) (known (by simp))
    have hbelow : rivalBook.Holds opening := .inl (by decide +kernel)
    have hfound := (hjoined.keeps.findBlock_eq_some hsound).2
      ⟨hbelow, (by decide +kernel : opening.hash = payment.parent)⟩
    have hheader := validateHeader_eq_ok.2 ⟨hfound, 600, tipFits_payment.header⟩
    have hpayment := known (b := payment) (by simp)
    obtain ⟨_, _, haccept, rfl, hs⟩ :=
      Node.ends_accept_fork hsound hjoined.keeps hpayment (by decide +kernel) hheader
    exact (hjoined.settled.submits_accepted (Book.sound_addFork hsound hpayment) haccept hs).answer
  obtain ⟨hsecond, hvalue⟩ := run_resubmits h
  refine ⟨h, hfirst, ?_, hvalue⟩
  rw [hsecond, hfirst]
  rfl

end

end ChainState
