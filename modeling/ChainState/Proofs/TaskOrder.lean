import ChainState.Crypto.Standard
import ChainState.Wire.Task
import ChainState.Proofs.Maps
import ChainState.Proofs.Bencode.SelfDelimiting

/-!
# The order of the task queue

Tasks are compared part by part, the entry by its canonical form. Since no two
entries share a canonical form, tasks that compare equal are the same task. So
a queue loses nothing that is put into it, holds nothing twice, and is gone
through in an order that does not depend on how it was filled.
-/

set_option autoImplicit false

namespace ChainState

namespace Task

theorem cmp_eq_compareLex : cmp =
    compareLex (compareOn timestamp) (compareLex (compareOn dataType)
      (compareLex (compareOn peer) (compareOn fun t => t.entry.render))) :=
  rfl

instance : Std.TransCmp cmp := by
  rw [cmp_eq_compareLex]
  infer_instance

instance : Std.LawfulEqCmp cmp where
  compare_self := Std.ReflCmp.compare_self
  eq_of_compare {a b} h := by
    simp only [cmp_eq_compareLex, compareLex_eq_eq, compareOn,
      Std.LawfulEqCmp.compare_eq_iff_eq, Bencode.render_injective.eq_iff] at h
    obtain ⟨htimestamp, hdataType, hpeer, hentry⟩ := h
    cases a
    cases b
    cases htimestamp
    cases hdataType
    cases hpeer
    cases hentry
    rfl

instance : Std.TransOrd Task := inferInstanceAs (Std.TransCmp cmp)

instance : Std.LawfulEqOrd Task := inferInstanceAs (Std.LawfulEqCmp cmp)

/-- The order of tasks is total, and equal in it are only equal tasks. So a queue
takes in a task beside all that it holds, goes through its tasks in ascending
order and meets none twice, and queues that were filled with the same tasks are
gone through in the same order. -/
theorem queue_lawful (a b c : Task) (queue : SortedSet Task) (ts us : List Task) :
    (b.cmp a = (a.cmp b).swap ∧ (a.cmp b = .eq ↔ a = b) ∧
        ((a.cmp b).isLE → (b.cmp c).isLE → (a.cmp c).isLE) ∧
        (a.cmp b = .lt → b.cmp c = .lt → a.cmp c = .lt)) ∧
      (∀ t, t ∈ (queue.insert a).elements ↔ t = a ∨ t ∈ queue.elements) ∧
      (queue.elements.Nodup ∧ queue.elements.Pairwise (fun t u => t.cmp u = .lt)) ∧
      (∀ t, t ∈ (SortedSet.ofElements ts).elements ↔ t ∈ ts) ∧
      ((∀ t, t ∈ ts ↔ t ∈ us) →
        (SortedSet.ofElements ts).elements = (SortedSet.ofElements us).elements) := by
  have order : b.cmp a = (a.cmp b).swap ∧ (a.cmp b = .eq ↔ a = b) ∧
      ((a.cmp b).isLE → (b.cmp c).isLE → (a.cmp c).isLE) ∧
      (a.cmp b = .lt → b.cmp c = .lt → a.cmp c = .lt) :=
    ⟨Std.OrientedCmp.eq_swap, Std.LawfulEqCmp.compare_eq_iff_eq, Std.TransCmp.isLE_trans,
      Std.TransCmp.lt_trans⟩
  have sameOrder (h : ∀ t, t ∈ ts ↔ t ∈ us) :
      (SortedSet.ofElements ts).elements = (SortedSet.ofElements us).elements := by
    rw [SortedSet.ofElements_congr h]
  exact ⟨order, fun _ => SortedSet.mem_elements_insert,
    ⟨queue.nodup_elements, queue.ascending_elements⟩,
    fun _ => SortedSet.mem_elements_ofElements, sameOrder⟩

def asked (chain : Bytes) (timestamp : Int64) : Task :=
  ofPayload .zero (.voteRequest chain) timestamp

theorem asked_ascend :
    (asked [1] 10).cmp (asked [2] 10) = .lt ∧ (asked [2] 10).cmp (asked [0] 20) = .lt := by
  decide +kernel

/-- Two tasks that differ only in their entries stand side by side in the queue. -/
theorem queue_lawful_asked :
    (asked [1] 10).cmp (asked [0] 20) = .lt ∧ ((asked [1] 10).cmp (asked [0] 20)).isLE ∧
      asked [1] 10 ∈ ((SortedSet.ofElements [asked [2] 10]).insert (asked [1] 10)).elements ∧
      asked [2] 10 ∈ ((SortedSet.ofElements [asked [2] 10]).insert (asked [1] 10)).elements ∧
      (SortedSet.ofElements [asked [0] 20, asked [2] 10, asked [1] 10]).elements =
        (SortedSet.ofElements [asked [1] 10, asked [2] 10, asked [0] 20]).elements := by
  obtain ⟨hfirst, hsecond⟩ := asked_ascend
  obtain ⟨⟨-, -, hle, hlt⟩, hinsert, -, -, hsame⟩ :=
    queue_lawful (asked [1] 10) (asked [2] 10) (asked [0] 20) (.ofElements [asked [2] 10])
      [asked [0] 20, asked [2] 10, asked [1] 10] [asked [1] 10, asked [2] 10, asked [0] 20]
  refine ⟨hlt hfirst hsecond, hle (by rw [hfirst]; rfl) (by rw [hsecond]; rfl),
    (hinsert _).2 (.inl rfl), (hinsert _).2 (.inr ?_), hsame fun t => ?_⟩
  · simp only [SortedSet.mem_elements_ofElements, List.mem_singleton]
  · simp [or_comm, or_left_comm]

end Task

end ChainState
