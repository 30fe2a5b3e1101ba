import ChainState.Proofs.NodeHistory

/-!
# Steps that a node settles

Between two requests, and after a switch of branches that is flushed at once,
a node has nothing staged that a failure would take back. So a step that fails
leaves every record as it was, and one that succeeds makes its one change of
the best chains durable.
-/

set_option autoImplicit false

namespace ChainState

variable [Crypto]

inductive NodeStep where
  | openChain (miner : Miner) (timestamp balance : Int64)
  | mine (miner : Miner) (t : Transaction) (now : Int64)
  | submit (block : Block)
  | switch (branch : List Block)

namespace NodeStep

def call : NodeStep → NodeCall
  | .openChain miner timestamp balance => .openChain miner timestamp balance
  | .mine miner t now => .mine miner t now
  | .submit block => .submit block
  | .switch branch => .switch branch

/-- What a node does in a step. No chain is opened with a negative balance. A
switch does not flush by itself. -/
def calls : NodeStep → List NodeCall
  | .openChain miner timestamp balance =>
    if balance < 0 then [] else [.openChain miner timestamp balance]
  | .mine miner t now => [.mine miner t now]
  | .submit block => [.submit block]
  | .switch branch => [.switch branch, .flush]

def perform (r : Repository) (step : NodeStep) : Repository :=
  step.calls.foldl NodeCall.perform r

def run (steps : List NodeStep) : Repository := steps.foldl perform .empty

theorem run_eq (steps : List NodeStep) : run steps = NodeCall.run (steps.flatMap calls) := by
  rw [run, NodeCall.run, List.foldl_flatMap]
  rfl

end NodeStep

variable {K : Registry} {A : Book} {r s : Repository}

open Transition

structure Settled (r : Repository) : Prop where
  bare : r.overlays = []
  durable : ∀ k, r.discardChanges.value k = r.value k

namespace Settled

theorem discarded (h : Settled r) : Settled r.discardChanges where
  bare := Repository.overlays_discardChanges h.bare
  durable _ := by rw [Repository.discardChanges_discardChanges h.bare]

theorem empty : Settled .empty where
  bare := rfl
  durable _ := rfl

def After (K : Registry) (call : NodeCall) (r : Repository) (A : Book) (s : Repository) : Prop :=
  Settled s ∧ call.Leads K r A s

variable {call : NodeCall}

theorem After.discarded (h : After K call r A s) : After K call r A s.discardChanges :=
  ⟨h.1.discarded, h.2.congr h.1.durable⟩

theorem ends_flush (hbare : s.overlays = []) (hs : call.Leads K r A s) :
    Ends flush s fun _ u => After K call r A u := by
  obtain ⟨B, hB, hkeeps, hadvances⟩ := hs
  refine (hkeeps.ends_flush hB hbare).mono ?_
  intro _ u ⟨hbare', hvalue, hdurable⟩
  exact ⟨⟨hbare', fun k => (hdurable k).trans (hvalue k).symm⟩, B, hB, hkeeps.congr hvalue,
    hadvances⟩

variable {ε α : Type} {t : ExceptT ε (StateM Repository) α}

theorem leaves_guarded (h : Settled r) (hA : A.Sound K) (hr : r.Keeps A) (ht : Local t)
    (hleads : Leaves t r (call.Leads K r A)) {u : ExceptT ε (StateM Repository) Unit}
    (hu : ∀ s : Repository, s.overlays = [] → call.Leads K r A s →
      Leaves u s (After K call r A)) :
    Leaves (do
      try
        let x ← t
        u
        return x
      catch e =>
        modify Repository.discardChanges
        throw e) r (After K call r A) := by
  have hback : After K call r A r.discardChanges :=
    ⟨h.discarded, (NodeCall.leads_refl hA hr).congr h.durable⟩
  have hmid : Leaves t r fun s => s.overlays = [] ∧ s.discardChanges = r.discardChanges ∧
      call.Leads K r A s := by
    obtain ⟨f, hf⟩ := ht r
    rw [Leaves, hf] at hleads ⊢
    exact ⟨Repository.overlays_amend h.bare f, Repository.discardChanges_amend h.bare f, hleads⟩
  apply ChainState.leaves_guarded hmid
  · exact fun s hs => hu s hs.1 hs.2.2
  · intro s hs
    rw [hs.2.1]
    exact hback
  · exact fun s hs => hs.discarded

end Settled

namespace NodeStep

/-- One step of a settled node makes one change that its call may make, and
leaves the node settled. -/
theorem perform_leads (hA : A.Sound K) (hr : r.Keeps A) (h : Settled r)
    (hbegins : ∀ c, ∀ first ∈ (A.main c).head?, first.isGenesis = true) (step : NodeStep)
    (hknown : ∀ b ∈ NodeCall.blocksFrom r step.calls, K.known b.stored) :
    Settled.After K step.call r A (step.perform r) := by
  have hsettle {b : Block} (hb : K.known b.stored)
      (hnew : step.call.Advances K r A (A.pushTip b.stored)) :
      Leaves (Node.settle (connectTip b)) r (Settled.After K step.call r A) :=
    h.leaves_guarded hA hr (amends_connectTip b).toLocal
      (NodeCall.leads_connectTip hA hr hb fun _ => hnew)
      fun _ hbare hs => (Settled.ends_flush hbare hs).leaves
  have hsame : Settled.After K step.call r A r := ⟨h, NodeCall.leads_refl hA hr⟩
  cases step with
  | openChain miner timestamp balance =>
    rw [perform]
    rw [calls] at hknown ⊢
    split at hknown
    · next hnegative =>
      rw [if_pos hnegative]
      exact hsame
    · next hbalance =>
      rw [if_neg hbalance]
      apply NodeCall.leaves_openChain hr fun _ => hsame
      intro hempty
      have hb := hknown (miner.genesis timestamp balance)
        (by simp [NodeCall.blocksFrom, NodeCall.blocks])
      exact hsettle hb (.opened rfl hempty)
  | mine miner t now =>
    apply NodeCall.leaves_mine hsame
    intro b hbuild
    have hb := hknown b
      (by simp [calls, NodeCall.blocksFrom, NodeCall.blocks, hbuild, Except.toOption])
    exact hsettle hb (.entered (.built miner t now hbuild))
  | submit b =>
    have hb := hknown b (by simp [calls, NodeCall.blocksFrom, NodeCall.blocks])
    have haccept : Leaves (Node.accept b) r (NodeCall.Leads K (.submit b) r A) :=
      NodeCall.leads_accept hA hr hbegins (fun _ hx => hx) hb
    exact h.leaves_guarded hA hr (Node.local_accept b) haccept
      fun _ hbare hs => Node.leaves_ofTransition (Settled.ends_flush hbare hs).leaves
  | switch branch =>
    obtain ⟨f, hf, hleads⟩ := NodeCall.leads_switch hA hr branch fun b hb =>
      hknown b (List.mem_append_left _ hb)
    show Settled.After K (.switch branch) r A
      ((flush.run.run (NodeCall.perform r (.switch branch))).2)
    rw [hf] at hleads ⊢
    exact (Settled.ends_flush (Repository.overlays_amend h.bare f) hleads).leaves

variable {P : List Block → Prop}

def Between (P : List Block → Prop) (K : Registry) (r : Repository) : Prop :=
  Steady P K r ∧ Settled r

theorem perform_between (hP : Law P) (h : Between P K r) (step : NodeStep)
    (hknown : ∀ b ∈ NodeCall.blocksFrom r step.calls, K.known b.stored)
    (hopens : ∀ call ∈ step.calls, call.Opens P) : Between P K (step.perform r) := by
  obtain ⟨hsteady, hsettled⟩ := h
  obtain ⟨A, hA, hr, ha⟩ := hsteady.staged
  refine ⟨NodeCall.foldl_steady hP step.calls hsteady hknown hopens, ?_⟩
  exact (perform_leads hA hr hsettled (fun c => hP.begins _ (ha c)) step hknown).1

def blocks (steps : List NodeStep) : List Block :=
  NodeCall.blocksFrom .empty (steps.flatMap calls)

theorem foldl_between (hP : Law P) (steps : List NodeStep) (h : Between P K r)
    (hknown : ∀ b ∈ NodeCall.blocksFrom r (steps.flatMap calls), K.known b.stored)
    (hopens : ∀ step ∈ steps, ∀ call ∈ step.calls, call.Opens P) :
    Between P K (steps.foldl perform r) := by
  induction steps generalizing r with
  | nil => exact h
  | cons step steps ih =>
    rw [List.flatMap_cons, NodeCall.blocksFrom_append] at hknown
    apply ih
    · apply perform_between hP h step
      · exact fun b hb => hknown b (List.mem_append_left _ hb)
      · exact hopens step (by simp)
    · exact fun b hb => hknown b (List.mem_append_right _ hb)
    · exact fun x hx => hopens x (by simp [hx])

theorem between_of_law {steps : List NodeStep} (hP : Law P) (h : Admissible (blocks steps))
    (hopens : ∀ step ∈ steps, ∀ call ∈ step.calls, call.Opens P) :
    Between P h.registry (run steps) :=
  foldl_between hP steps ⟨steady_empty hP _, .empty⟩ (fun b hb => ⟨b, hb, rfl⟩) hopens

theorem between_before {before after : List NodeStep} {step : NodeStep} (hP : Law P)
    (h : Admissible (blocks (before ++ step::after)))
    (hopens : ∀ x ∈ before ++ step::after, ∀ call ∈ x.calls, call.Opens P) :
    Between P h.registry (run before) ∧
      ∀ b ∈ NodeCall.blocksFrom (run before) step.calls, h.registry.known b.stored := by
  have hknown : ∀ b ∈ NodeCall.blocksFrom .empty (before.flatMap calls) ++
      NodeCall.blocksFrom (run before) (step.calls ++ after.flatMap calls),
      h.registry.known b.stored := by
    intro b hb
    refine ⟨b, ?_, rfl⟩
    rw [blocks, List.flatMap_append, NodeCall.blocksFrom_append]
    rwa [run_eq] at hb
  constructor
  · apply foldl_between hP before ⟨steady_empty hP _, .empty⟩
    · exact fun b hb => hknown b (List.mem_append_left _ hb)
    · exact fun x hx => hopens x (List.mem_append_left _ hx)
  · intro b hb
    apply hknown
    apply List.mem_append_right
    rw [NodeCall.blocksFrom_append]
    exact List.mem_append_left _ hb

end NodeStep

end ChainState
