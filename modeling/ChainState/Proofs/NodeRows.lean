import ChainState.Proofs.FlushedRows
import ChainState.Proofs.NodeSteps

/-!
# Rows between the steps of a node

Every step of a node ends in a flush or in the state that a failure falls back
to. So between two steps the durable store holds all that the node keeps, and
the rows of the height index are those of its best chains.
-/

set_option autoImplicit false

namespace ChainState

variable [Crypto] {K : Registry} {A D : Book} {r s : Repository} {b : Block}

open Transition

structure Indexed (K : Registry) (r : Repository) : Prop where
  bare : r.overlays = []
  current : ∃ D, Current K D r

theorem Reconcilable.indexed_discardChanges (h : Reconcilable K D r) (hbare : r.overlays = []) :
    Indexed K r.discardChanges := by
  obtain ⟨store, staged, overlays⟩ := r
  obtain rfl : overlays = [] := hbare
  exact ⟨rfl, D, h.durable.keeps, h.durable⟩

theorem Reconcilable.leaves_flush (h : Reconcilable K D r) (hbare : r.overlays = []) :
    Leaves flush r (Indexed K) := by
  obtain ⟨A, hA⟩ := h.notes
  obtain ⟨_, s, hrun, B, -, hcurrent⟩ := h.ends_flush
  have hs := (hA.keeps.ends_flush hA.sound hbare).leaves.of_run hrun
  rw [Leaves, hrun]
  exact ⟨hs.1, B, hcurrent⟩

namespace Indexed

theorem empty (K : Registry) : Indexed K .empty :=
  ⟨rfl, .empty, Repository.keeps_empty, durable_empty K⟩

theorem reconcilable (h : Indexed K r) : ∃ D, Reconcilable K D r := by
  obtain ⟨hbare, D, hkeeps, hdurable⟩ := h
  obtain ⟨store, staged, overlays⟩ := r
  obtain rfl : overlays = [] := hbare
  exact ⟨D, hdurable, D, .bare hdurable.sound hkeeps (Book.covers_of_eq _ rfl)⟩

theorem discardChanges (h : Indexed K r) : Indexed K r.discardChanges := by
  obtain ⟨D, hD⟩ := h.reconcilable
  exact hD.indexed_discardChanges h.bare

theorem leaves_guarded {ε α : Type} {t : ExceptT ε (StateM Repository) α}
    {u : ExceptT ε (StateM Repository) Unit} (h : Indexed K r) (ht : Local t)
    (hmoves : ∀ D, Reconcilable K D r → Leaves t r (Reconcilable K D))
    (hu : ∀ s, Leaves flush s (Indexed K) → Leaves u s (Indexed K)) :
    Leaves (do
      try
        let x ← t
        u
        return x
      catch e =>
        modify Repository.discardChanges
        throw e) r (Indexed K) := by
  obtain ⟨D, hD⟩ := h.reconcilable
  have hmid : Leaves t r fun s => s.overlays = [] ∧ Reconcilable K D s := by
    have hs := hmoves D hD
    obtain ⟨f, hf⟩ := ht r
    rw [Leaves, hf] at hs ⊢
    exact ⟨Repository.overlays_amend h.bare f, hs⟩
  apply ChainState.leaves_guarded hmid
  · exact fun s hs => hu s (hs.2.leaves_flush hs.1)
  · exact fun s hs => hs.2.indexed_discardChanges hs.1
  · exact fun s hs => hs.discardChanges

end Indexed

theorem Reconcilable.leaves_accept (h : Reconcilable K D r) (hb : K.known b.stored) :
    Leaves (Node.accept b) r (Reconcilable K D) := by
  have hmove (call : ChainCall) (hcall : call.block? = some b) :
      Leaves call.transition r (Reconcilable K D) :=
    h.move call fun x hx => Option.some.inj (hcall.symm.trans hx) ▸ hb
  apply Node.leaves_ofCheck_bind h
  intro placement _
  cases placement with
  | extendsTip =>
    apply Node.leaves_ofCheck_bind h
    intro _ _
    exact (Node.leaves_ofTransition (hmove (.connectTip b) rfl)).bind fun _ s hs => hs
  | extendsTail =>
    apply Node.leaves_ofCheck_bind h
    intro _ _
    exact (Node.leaves_ofTransition (hmove (.connectTail b) rfl)).bind fun _ s hs => hs
  | fork =>
    show Leaves (do
      discard (Node.ofCheck fun r => validateHeader r b)
      Node.ofTransition .repository (saveFork b)
      return Placement.fork) r (Reconcilable K D)
    rw [discard_eq_bind, bind_assoc]
    apply Node.leaves_ofCheck_bind h
    intro _ _
    exact (Node.leaves_ofTransition (hmove (.saveFork b) rfl)).bind fun _ s hs => hs
  | stale => exact h

namespace NodeStep

theorem perform_indexed (h : Indexed K r) (hA : A.Sound K) (hr : r.Keeps A) (step : NodeStep)
    (hknown : ∀ b ∈ NodeCall.blocksFrom r step.calls, K.known b.stored) :
    Indexed K (step.perform r) := by
  have hsettle {b : Block} (hb : K.known b.stored) :
      Leaves (Node.settle (connectTip b)) r (Indexed K) :=
    h.leaves_guarded (amends_connectTip b).toLocal
      (fun D hD => hD.move (.connectTip b) fun x hx => Option.some.inj hx ▸ hb) fun _ hs => hs
  cases step with
  | openChain miner timestamp balance =>
    rw [perform]
    rw [calls] at hknown ⊢
    split at hknown
    · next hnegative =>
      rw [if_pos hnegative]
      exact h
    · next hbalance =>
      rw [if_neg hbalance]
      apply NodeCall.leaves_openChain hr fun _ => h
      intro _
      exact hsettle (hknown (miner.genesis timestamp balance)
        (by simp [NodeCall.blocksFrom, NodeCall.blocks]))
  | mine miner t now =>
    apply NodeCall.leaves_mine h
    intro b hbuild
    exact hsettle (hknown b
      (by simp [calls, NodeCall.blocksFrom, NodeCall.blocks, hbuild, Except.toOption]))
  | submit b =>
    have hb := hknown b (by simp [calls, NodeCall.blocksFrom, NodeCall.blocks])
    exact h.leaves_guarded (Node.local_accept b) (fun D hD => hD.leaves_accept hb)
      fun _ hs => Node.leaves_ofTransition hs
  | switch branch =>
    have hbranch : ∀ b ∈ branch, K.known b.stored :=
      fun b hb => hknown b (List.mem_append_left _ hb)
    obtain ⟨D, hD⟩ := h.reconcilable
    obtain ⟨f, hf, -⟩ := NodeCall.leads_switch hA hr branch hbranch
    have hbare : (NodeCall.perform r (.switch branch)).overlays = [] := by
      rw [hf]
      exact Repository.overlays_amend h.bare f
    exact (hD.switch hbranch).leaves_flush hbare

theorem foldl_indexed {P : List Block → Prop} (hP : Law P) (steps : List NodeStep)
    (h : Indexed K r) (hbetween : Between P K r)
    (hknown : ∀ b ∈ NodeCall.blocksFrom r (steps.flatMap calls), K.known b.stored)
    (hopens : ∀ step ∈ steps, ∀ call ∈ step.calls, call.Opens P) :
    Indexed K (steps.foldl perform r) := by
  induction steps generalizing r with
  | nil => exact h
  | cons step steps ih =>
    rw [List.flatMap_cons, NodeCall.blocksFrom_append] at hknown
    have hfirst := fun b hb => hknown b (List.mem_append_left _ hb)
    obtain ⟨A, hA, hr, -⟩ := hbetween.1.staged
    apply ih
    · exact perform_indexed h hA hr step hfirst
    · exact perform_between hP hbetween step hfirst (hopens step (by simp))
    · exact fun b hb => hknown b (List.mem_append_right _ hb)
    · exact fun x hx => hopens x (by simp [hx])

end NodeStep

end ChainState
