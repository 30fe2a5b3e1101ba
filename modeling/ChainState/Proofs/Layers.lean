import ChainState.Proofs.Runs
import ChainState.Repository.Session

/-!
# What an overlay holds back

An overlay in which only the topmost layer was written to can be dropped, and
everything is as it was before; or it is handed down, and every key keeps the
value that it had within the overlay.
-/

set_option autoImplicit false

namespace ChainState

theorem lookup_union (k : Key) (lower upper : Layer) (below : List Layer) :
    lookup k ((lower ∪ upper)::below) = lookup k (upper::lower::below) := by
  simp only [lookup, Std.HashMap.getElem?_union]
  cases upper[k]? <;> rfl

theorem lookup_none {k : Key} {layer : Layer} (h : layer[k]? = none) (below : List Layer) :
    lookup k (layer::below) = lookup k below := by
  rw [lookup, h]

theorem mapM_ok {ε α β : Type} {f : α → Except ε β} {g : α → β} {xs : List α}
    (h : ∀ x ∈ xs, f x = .ok (g x)) : xs.mapM f = .ok (xs.map g) := by
  induction xs with
  | nil => rfl
  | cons x xs ih =>
    rw [List.mapM_cons, h x (by simp), ih fun y hy => h y (by simp [hy])]
    rfl

theorem lookup_append_congr {k : Key} {below below' : List Layer}
    (h : lookup k below = lookup k below') (above : List Layer) :
    lookup k (above ++ below) = lookup k (above ++ below') := by
  induction above with
  | nil => exact h
  | cons layer above ih => rw [List.cons_append, List.cons_append, lookup, lookup, ih]

variable [Crypto]

namespace Repository

variable (r : Repository)

@[simp] theorem amend_id : r.amend id = r := by
  obtain ⟨store, staged, overlays⟩ := r
  cases overlays <;> rfl

@[simp] theorem amend_amend (f g : Batch → Batch) : (r.amend f).amend g = r.amend (g ∘ f) := by
  obtain ⟨store, staged, overlays⟩ := r
  cases overlays <;> rfl

@[simp] theorem store_amend (f : Batch → Batch) : (r.amend f).store = r.store := by
  obtain ⟨store, staged, overlays⟩ := r
  cases overlays <;> rfl

@[simp] theorem untrack_amend_track (f : Batch → Batch) : (r.track.amend f).untrack = r := rfl

theorem handDown_amend_track (f : Batch → Batch) :
    (r.track.amend f).handDown.untrack = r.amend (·.append (f .empty)) := by
  obtain ⟨store, staged, overlays⟩ := r
  cases overlays <;> rfl

@[simp] theorem overlays_amend {r : Repository} (h : r.overlays = []) (f : Batch → Batch) :
    (r.amend f).overlays = [] := by
  rw [amend, h]

theorem discardChanges_amend {r : Repository} (h : r.overlays = []) (f : Batch → Batch) :
    (r.amend f).discardChanges = r.discardChanges := by
  rw [amend, h]
  simp only [discardChanges, h]

theorem overlays_discardChanges {r : Repository} (h : r.overlays = []) :
    r.discardChanges.overlays = [] := by
  rw [discardChanges, h]

theorem discardChanges_discardChanges {r : Repository} (h : r.overlays = []) :
    r.discardChanges.discardChanges = r.discardChanges := by
  simp only [discardChanges, h]

@[simp] theorem value_track (k : Key) : r.track.value k = r.value k :=
  lookup_none (by simp [Overlay.empty, Batch.empty]) _

theorem value_handDown_amend_track (f : Batch → Batch) (k : Key) :
    (r.track.amend f).handDown.untrack.value k = (r.track.amend f).value k := by
  rw [handDown_amend_track]
  obtain ⟨store, staged, overlays⟩ := r
  cases overlays with
  | nil => exact lookup_union k _ _ _
  | cons top below => exact lookup_union k _ _ _

end Repository

namespace Transition

variable {ε α β : Type}

/-- `t` writes to the topmost layer only. -/
def Local (t : ExceptT ε (StateM Repository) α) : Prop :=
  ∀ r, ∃ f, (t.run.run r).2 = r.amend f

theorem Unchanging.toLocal {t : ExceptT ε (StateM Repository) α} (h : Unchanging t) : Local t := by
  intro r
  exact ⟨id, (h r).trans r.amend_id.symm⟩

theorem local_pure (x : α) : Local (pure x : ExceptT ε (StateM Repository) α) :=
  (unchanging_pure x).toLocal

theorem local_throw (e : ε) : Local (throw e : ExceptT ε (StateM Repository) α) :=
  (unchanging_throw e).toLocal

theorem local_bind {t : ExceptT ε (StateM Repository) α}
    {g : α → ExceptT ε (StateM Repository) β} (ht : Local t) (hg : ∀ x, Local (g x)) :
    Local (t >>= g) := by
  intro r
  obtain ⟨f, hf⟩ := ht r
  cases h : t.run.run r with
  | mk x s =>
    rw [h] at hf
    cases x with
    | error e => exact ⟨f, by rw [run_bind_error h]; exact hf⟩
    | ok x =>
      obtain ⟨f', hf'⟩ := hg x s
      refine ⟨f' ∘ f, ?_⟩
      rw [run_bind_ok h, hf', ← Repository.amend_amend]
      exact congrArg (·.amend f') hf

theorem local_ite {p : Prop} [Decidable p] {t u : ExceptT ε (StateM Repository) α}
    (ht : Local t) (hu : Local u) : Local (if p then t else u) := by
  split
  · exact ht
  · exact hu

theorem local_forM {f : α → ExceptT ε (StateM Repository) Unit} (hf : ∀ x, Local (f x))
    (xs : List α) : Local (xs.forM f) := by
  induction xs with
  | nil => exact local_pure ()
  | cons x xs ih => exact local_bind (hf x) fun _ => ih

theorem local_query (q : Repository → Query α) : Local (query q) := (unchanging_query q).toLocal

theorem run_guarded (t : ExceptT ε (StateM Repository) α)
    (u : ExceptT ε (StateM Repository) Unit) (r : Repository) :
    (do
      try
        let x ← t
        u
        return x
      catch e =>
        modify Repository.discardChanges
        throw e : ExceptT ε (StateM Repository) α).run.run r =
      match t.run.run r with
      | (.error e, s) => (.error e, s.discardChanges)
      | (.ok x, s) =>
        match u.run.run s with
        | (.error e, s) => (.error e, s.discardChanges)
        | (.ok _, s) => (.ok x, s) := by
  -- the guarded part returns early, and hands its result on as an error
  let body : ExceptT ε (StateM Repository) (Except α α) := do
    let x ← t
    u
    return .error x
  rcases ht : t.run.run r with ⟨_ | x, s⟩
  · have hbody : body.run.run r = (.error _, s) := run_bind_error ht
    exact run_bind_error (run_tryCatch_error hbody)
  · dsimp only
    rcases hu : u.run.run s with ⟨_ | _, s'⟩
    · have hbody : body.run.run r = (.error _, s') := (run_bind_ok ht).trans (run_bind_error hu)
      exact run_bind_error (run_tryCatch_error hbody)
    · have hbody : body.run.run r = (.ok (.error x), s') :=
        (run_bind_ok ht).trans (run_bind_ok hu)
      exact run_bind_ok (run_tryCatch_ok hbody)

end Transition

namespace Repository

theorem lookup_handDownAll (store : Store) (staged : Batch) (overlays : List Overlay) (k : Key) :
    lookup k [(handDownAll ⟨store, staged, overlays⟩).staged.writes, store.records] =
      (⟨store, staged, overlays⟩ : Repository).value k := by
  induction overlays with
  | nil => rfl
  | cons top below ih =>
    have hstaged : (handDownAll ⟨store, staged, top::below⟩).staged =
        (handDownAll ⟨store, staged, below⟩).staged.append top.batch := by
      simp [handDownAll]
    rw [hstaged, Batch.append, lookup_union, lookup, ih]
    rfl

theorem lookup_opened (k : Key) (overlays : List Overlay) (below : List Layer) :
    lookup k ((overlays.map fun _ => Overlay.empty).map (·.batch.writes) ++ below) =
      lookup k below := by
  induction overlays with
  | nil => rfl
  | cons top rest ih => exact (lookup_none (by simp [Overlay.empty, Batch.empty]) _).trans ih

/-- Handing everything down keeps every value. -/
theorem value_handDownAll (r : Repository) (k : Key) : r.handDownAll.value k = r.value k := by
  obtain ⟨store, staged, overlays⟩ := r
  exact (lookup_opened k overlays _).trans (lookup_handDownAll store staged overlays k)

structure Flushed (main : Block → Bool) (r s : Repository) : Prop where
  overlays : s.overlays = r.overlays
  writes : ∀ k : Key, s.staged.writes[k]? = none
  noted : s.staged.noted = []
  records : ∀ k, lookup k [s.store.records] = lookup k [r.staged.writes, r.store.records]
  heights : s.store.heights =
    (r.staged.noted.map fun b => (b, main b)).foldl indexBlock r.store.heights

theorem flushStaged_ok {r : Repository} {main : Block → Bool}
    (hmain : ∀ b, r.isMain b = .ok (main b)) : ∃ s, r.flushStaged = .ok s ∧ Flushed main r s := by
  rw [flushStaged]
  by_cases he : r.staged.isEmpty = true
  · obtain ⟨hw, hn⟩ : r.staged.writes.isEmpty = true ∧ r.staged.noted = [] := by
      simpa [Batch.isEmpty] using he
    have hwrites : ∀ k : Key, r.staged.writes[k]? = none := fun k =>
      Std.HashMap.getElem?_of_isEmpty hw
    refine ⟨r, by rw [if_pos he]; rfl, rfl, hwrites, hn, fun k => ?_, ?_⟩
    · rw [lookup_none (hwrites k)]
    · rw [hn]
      rfl
  · have hs : (r.staged.noted.mapM fun b => (do return (b, ← r.isMain b) :
        Query (Block × Bool))) = .ok (r.staged.noted.map fun b => (b, main b)) :=
      mapM_ok fun b _ => by
        rw [hmain]
        rfl
    rw [if_neg he, hs]
    refine ⟨_, rfl, rfl, fun k => by simp [Batch.empty], rfl, fun k => ?_, rfl⟩
    rw [lookup_union]

namespace Flushed

variable {main : Block → Bool} {r s : Repository}

theorem value (h : Flushed main r s) (k : Key) : s.value k = r.value k := by
  rw [Repository.value, Repository.value, layers, layers, h.overlays]
  apply lookup_append_congr
  rw [lookup_none (h.writes k), h.records]

/-- A flush leaves no value that a failure would discard. -/
theorem durable (h : Flushed main r s) (hbare : r.overlays = []) (k : Key) :
    s.discardChanges.value k = r.value k := by
  rw [discardChanges, h.overlays, hbare]
  refine (lookup_none (by simp [Batch.empty]) _).trans ((h.records k).trans ?_)
  rw [Repository.value, layers, hbare]
  rfl

end Flushed

end Repository

namespace Transition

theorem ends_flush {r : Repository} {main : Block → Bool}
    (hmain : ∀ b, r.handDownAll.isMain b = .ok (main b)) :
    Ends flush r fun _ s => Repository.Flushed main r.handDownAll s := by
  obtain ⟨s, hs, hflushed⟩ := Repository.flushStaged_ok hmain
  rw [flush, ends_bind, ends_modify, ends_query_bind hs]
  exact ⟨(), s, rfl, hflushed⟩

end Transition

end ChainState
