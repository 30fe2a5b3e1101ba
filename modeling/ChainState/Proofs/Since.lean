import Mathlib

/-!
# What stands since

In a sequence of events something stands if an event brought it about and none
after that one undid it.
-/

set_option autoImplicit false

namespace ChainState

variable {α : Type} {begins ends : α → Prop} {events : List α} {e : α}

/-- Some event begins it, and none after that one ends it. -/
def Since (begins ends : α → Prop) (events : List α) : Prop :=
  ∃ before e after, events = before ++ e::after ∧ begins e ∧ ∀ f ∈ after, ¬ ends f

theorem not_since_nil : ¬ Since begins ends [] := by
  rintro ⟨before, e, after, h, -⟩
  simp at h

theorem since_concat :
    Since begins ends (events ++ [e]) ↔ begins e ∨ Since begins ends events ∧ ¬ ends e := by
  constructor
  · rintro ⟨before, f, after, heq, hbegins, hends⟩
    rcases List.eq_nil_or_concat after with rfl | ⟨init, g, rfl⟩
    · obtain ⟨-, he⟩ := List.append_inj' heq rfl
      exact .inl (List.singleton_inj.1 he ▸ hbegins)
    · rw [List.concat_eq_append, ← List.cons_append, ← List.append_assoc] at heq
      obtain ⟨rfl, he⟩ := List.append_inj' heq rfl
      obtain rfl := List.singleton_inj.1 he
      simp only [List.concat_eq_append, List.mem_append, List.mem_singleton] at hends
      exact .inr ⟨⟨before, f, init, rfl, hbegins, fun g hg => hends g (.inl hg)⟩,
        hends e (.inr rfl)⟩
  · rintro (hbegins | ⟨⟨before, f, after, rfl, hbegins, hends⟩, hlast⟩)
    · exact ⟨events, e, [], rfl, hbegins, by simp⟩
    · refine ⟨before, f, after ++ [e], by simp, hbegins, fun g hg => ?_⟩
      rcases List.mem_append.1 hg with hg | hg
      · exact hends g hg
      · rwa [List.mem_singleton.1 hg]

end ChainState
