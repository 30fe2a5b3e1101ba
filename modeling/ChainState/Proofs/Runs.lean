import ChainState.Repository.Transition
import Mathlib

/-!
# How a transition ends

`Ends t r post` says that `t`, run on `r`, succeeds, and that `post` holds of
its result and of the repository it leaves. Each building block of a
transition has a rule, so that a transition is followed step by step.
-/

set_option autoImplicit false

namespace ChainState

namespace Transition

variable [Crypto] {ε α β : Type}

def Ends (t : ExceptT ε (StateM Repository) α) (r : Repository)
    (post : α → Repository → Prop) : Prop :=
  ∃ x s, t.run.run r = (.ok x, s) ∧ post x s

def Refuses (t : ExceptT ε (StateM Repository) α) (r : Repository) (e : ε) : Prop :=
  t.run.run r = (.error e, r)

section

variable {t : ExceptT ε (StateM Repository) α} {r : Repository}

theorem Ends.mono {p q : α → Repository → Prop}
    (h : Ends t r p) (hpq : ∀ x s, p x s → q x s) : Ends t r q := by
  obtain ⟨x, s, hrun, hp⟩ := h
  exact ⟨x, s, hrun, hpq x s hp⟩

theorem Ends.snd {p : Repository → Prop} (h : Ends t r fun _ => p) : p (t.run.run r).2 := by
  obtain ⟨x, s, hrun, hp⟩ := h
  rw [hrun]
  exact hp

theorem Refuses.snd {e : ε} (h : Refuses t r e) : (t.run.run r).2 = r := by
  rw [Refuses] at h
  rw [h]

theorem Refuses.not_ends {e : ε} {p : α → Repository → Prop} (h : Refuses t r e) :
    ¬ Ends t r p := by
  rintro ⟨x, s, hrun, -⟩
  cases h.symm.trans hrun

variable {f : α → ExceptT ε (StateM Repository) β}

theorem run_bind_ok {s : Repository} {x : α} (h : t.run.run r = (.ok x, s)) :
    (t >>= f).run.run r = (f x).run.run s := by
  simp only [ExceptT.run_bind, StateT.run_bind, h]
  rfl

theorem run_bind_error {s : Repository} {e : ε} (h : t.run.run r = (.error e, s)) :
    (t >>= f).run.run r = (.error e, s) := by
  simp only [ExceptT.run_bind, StateT.run_bind, h]
  rfl

theorem run_tryCatch_ok {g : ε → ExceptT ε (StateM Repository) α} {s : Repository} {x : α}
    (h : t.run.run r = (.ok x, s)) : (tryCatch t g).run.run r = (.ok x, s) := by
  simp only [ExceptT.run_tryCatch, StateT.run_bind, h]
  rfl

theorem run_tryCatch_error {g : ε → ExceptT ε (StateM Repository) α} {s : Repository} {e : ε}
    (h : t.run.run r = (.error e, s)) : (tryCatch t g).run.run r = (g e).run.run s := by
  simp only [ExceptT.run_tryCatch, StateT.run_bind, h]
  rfl

theorem ends_bind {post : β → Repository → Prop} :
    Ends (t >>= f) r post ↔ Ends t r fun x s => Ends (f x) s post := by
  constructor
  · rintro ⟨y, u, hrun, hpost⟩
    cases h : t.run.run r with
    | mk x s =>
      cases x with
      | ok x =>
        rw [run_bind_ok h] at hrun
        exact ⟨x, s, h, y, u, hrun, hpost⟩
      | error e =>
        rw [run_bind_error h] at hrun
        cases hrun
  · rintro ⟨x, s, h, y, u, hrun, hpost⟩
    exact ⟨y, u, (run_bind_ok h).trans hrun, hpost⟩

theorem ends_pure {x : α} {post : α → Repository → Prop} :
    Ends (pure x : ExceptT ε (StateM Repository) α) r post ↔ post x r := by
  constructor
  · rintro ⟨y, s, hrun, hpost⟩
    cases hrun
    exact hpost
  · exact fun h => ⟨x, r, rfl, h⟩

theorem discard_eq_bind : discard t = t >>= fun _ => pure ⟨⟩ := by
  rw [discard, map_const, Function.comp_apply, map_eq_pure_bind]

theorem ends_discard {post : PUnit → Repository → Prop} :
    Ends (discard t) r post ↔ Ends t r fun _ => post ⟨⟩ := by
  rw [discard_eq_bind, ends_bind]
  simp only [ends_pure]

theorem ends_modify {f : Repository → Repository} {post : Unit → Repository → Prop} :
    Ends (modify f : ExceptT ε (StateM Repository) Unit) r post ↔ post () (f r) := by
  constructor
  · rintro ⟨y, s, hrun, hpost⟩
    cases hrun
    exact hpost
  · exact fun h => ⟨(), f r, rfl, h⟩

theorem run_get_bind (f : Repository → ExceptT ε (StateM Repository) α) (r : Repository) :
    (get >>= f).run.run r = (f r).run.run r :=
  rfl

end

theorem run_query_ok {q : Repository → Query α} {r : Repository} {x : α} (h : q r = .ok x) :
    (query q).run.run r = (.ok x, r) := by
  rw [query, run_get_bind, h]
  rfl

theorem run_query_error {q : Repository → Query α} {r : Repository} {e : RepositoryError}
    (h : q r = .error e) : (query q).run.run r = (.error e, r) := by
  rw [query, run_get_bind, h]
  rfl

theorem ends_query {q : Repository → Query α} {r : Repository} {x : α}
    {post : α → Repository → Prop} (h : q r = .ok x) : Ends (query q) r post ↔ post x r := by
  constructor
  · rintro ⟨y, s, hrun, hpost⟩
    rw [run_query_ok h] at hrun
    cases hrun
    exact hpost
  · exact fun hpost => ⟨x, r, run_query_ok h, hpost⟩

theorem ends_query_bind {q : Repository → Query α} {f : α → Transition β} {r : Repository}
    {x : α} {post : β → Repository → Prop} (h : q r = .ok x) :
    Ends (query q >>= f) r post ↔ Ends (f x) r post := by
  rw [ends_bind, ends_query h]

@[simp] theorem ends_put {k : Key} {v : Bytes} {r : Repository}
    {post : Unit → Repository → Prop} : Ends (put k v) r post ↔ post () (r.put k v) :=
  ends_modify

@[simp] theorem ends_delete {k : Key} {r : Repository} {post : Unit → Repository → Prop} :
    Ends (delete k) r post ↔ post () (r.delete k) :=
  ends_modify

/-- What a run leaves satisfies `post`, whether it succeeds or fails. -/
def Leaves (t : ExceptT ε (StateM Repository) α) (r : Repository)
    (post : Repository → Prop) : Prop :=
  post (t.run.run r).2

section

variable {t : ExceptT ε (StateM Repository) α} {r : Repository} {post : Repository → Prop}

theorem Ends.leaves (h : Ends t r fun _ => post) : Leaves t r post := h.snd

theorem Leaves.mono {post' : Repository → Prop} (h : Leaves t r post)
    (hpost : ∀ s, post s → post' s) : Leaves t r post' :=
  hpost _ h

theorem Leaves.of_run {x : Except ε α} {s : Repository} (h : Leaves t r post)
    (hrun : t.run.run r = (x, s)) : post s := by
  rwa [Leaves, hrun] at h

theorem leaves_bind {f : α → ExceptT ε (StateM Repository) β}
    (herror : ∀ e s, t.run.run r = (.error e, s) → post s)
    (hok : ∀ x s, t.run.run r = (.ok x, s) → Leaves (f x) s post) : Leaves (t >>= f) r post := by
  cases h : t.run.run r with
  | mk x s =>
    cases x with
    | ok x =>
      rw [Leaves, run_bind_ok h]
      exact hok x s h
    | error e =>
      rw [Leaves, run_bind_error h]
      exact herror e s h

theorem Leaves.bind {f : α → ExceptT ε (StateM Repository) β} (ht : Leaves t r post)
    (hf : ∀ x s, post s → Leaves (f x) s post) : Leaves (t >>= f) r post := by
  apply leaves_bind
  · exact fun e s h => ht.of_run h
  · exact fun x s h => hf x s (ht.of_run h)

end

/-- `t` only looks at the repository. -/
def Unchanging (t : ExceptT ε (StateM Repository) α) : Prop := ∀ r, (t.run.run r).2 = r

theorem unchanging_pure (x : α) : Unchanging (pure x : ExceptT ε (StateM Repository) α) :=
  fun _ => rfl

theorem unchanging_throw (e : ε) : Unchanging (throw e : ExceptT ε (StateM Repository) α) :=
  fun _ => rfl

theorem Unchanging.bind {t : ExceptT ε (StateM Repository) α}
    {f : α → ExceptT ε (StateM Repository) β} (ht : Unchanging t) (hf : ∀ x, Unchanging (f x)) :
    Unchanging (t >>= f) := by
  intro r
  rcases h : t.run.run r with ⟨_ | x, s⟩
  · rw [run_bind_error h, ← ht r, h]
  · rw [run_bind_ok h, hf x s, ← ht r, h]

theorem unchanging_query (q : Repository → Query α) : Unchanging (query q) := by
  intro r
  cases h : q r with
  | ok x => rw [run_query_ok h]
  | error e => rw [run_query_error h]

theorem ends_forM {f : α → Transition Unit} (inv : List α → Repository → Prop) {xs : List α}
    {r : Repository} (h₀ : inv [] r)
    (h : ∀ done x rest s, xs = done ++ x :: rest → inv done s →
      Ends (f x) s fun _ => inv (done ++ [x])) :
    Ends (xs.forM f) r fun _ => inv xs := by
  suffices ∀ rest done s, xs = done ++ rest → inv done s →
      Ends (rest.forM f) s fun _ => inv xs from this xs [] r rfl h₀
  intro rest
  induction rest with
  | nil =>
    intro done s hxs hinv
    rw [hxs, List.append_nil]
    exact ends_pure.2 hinv
  | cons x rest ih =>
    intro done s hxs hinv
    refine ends_bind.2 ((h done x rest s hxs hinv).mono fun _ s' hinv' => ?_)
    exact ih (done ++ [x]) s' (by simp [hxs]) hinv'

theorem ends_foldlM {f : β → α → Transition β} (inv : List α → β → Repository → Prop)
    {xs : List α} {b : β} {r : Repository} (h₀ : inv [] b r)
    (h : ∀ done x rest b s, xs = done ++ x :: rest → inv done b s →
      Ends (f b x) s (inv (done ++ [x]))) :
    Ends (xs.foldlM f b) r (inv xs) := by
  suffices ∀ rest done b s, xs = done ++ rest → inv done b s →
      Ends (rest.foldlM f b) s (inv xs) from this xs [] b r rfl h₀
  intro rest
  induction rest with
  | nil =>
    intro done b s hxs hinv
    rw [hxs, List.append_nil]
    exact ends_pure.2 hinv
  | cons x rest ih =>
    intro done b s hxs hinv
    rw [List.foldlM_cons]
    refine ends_bind.2 ((h done x rest b s hxs hinv).mono fun b' s' hinv' => ?_)
    exact ih (done ++ [x]) b' s' (by simp [hxs]) hinv'

end Transition

end ChainState
