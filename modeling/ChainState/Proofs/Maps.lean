import ChainState.SortedMap
import Mathlib

/-!
# Look-ups determine a map

Every operation on a map is described by what a look-up finds afterwards, and
two maps in which all look-ups agree are the same. So a map that is written
out entry by entry and rebuilt by insertions is the map it was.
-/

set_option autoImplicit false

namespace ChainState

namespace Ascending

variable {κ α : Type} [Ord κ]

theorem find?_eq_none_of_lt {k : κ} {entries : List (κ × α)}
    (h : ∀ e ∈ entries, compare k e.1 = .lt) : find? k entries = none := by
  induction entries with
  | nil => rfl
  | cons hd rest ih =>
    have hk : compare k hd.1 ≠ .eq := by simp [h hd (by simp)]
    rw [find?, if_neg hk]
    exact ih (fun e he => h e (by simp [he]))

theorem find?_eq_some_iff [Std.LawfulEqOrd κ] {k : κ} {v : α} {entries : List (κ × α)}
    (hs : Sorted entries) : find? k entries = some v ↔ (k, v) ∈ entries := by
  induction entries with
  | nil => simp [find?]
  | cons hd rest ih =>
    obtain ⟨hlt, hrest⟩ := List.pairwise_cons.1 hs
    obtain ⟨k₀, v₀⟩ := hd
    by_cases hk : k = k₀
    · subst hk
      have hnot : (k, v) ∉ rest := fun hm => by simpa using hlt _ hm
      simp [find?, hnot, eq_comm]
    · simp [find?, hk, ih hrest]

theorem find?_erase [Std.LawfulEqOrd κ] [DecidableEq κ] (k k' : κ) (entries : List (κ × α)) :
    find? k' (erase k entries) = if k' = k then none else find? k' entries := by
  induction entries with
  | nil => simp [erase, find?]
  | cons hd rest ih =>
    obtain ⟨k₀, v₀⟩ := hd
    simp only [erase] at ih ⊢
    by_cases h : k = k₀
    · subst h
      by_cases hk : k' = k
      · subst hk
        simpa using ih
      · simpa [find?, hk] using ih
    · have hne : (compare k k₀ != .eq) = true := by simpa using h
      by_cases hk : k' = k₀
      · subst hk
        simp [find?, hne, Ne.symm h]
      · simp [find?, hne, hk, ih]

theorem eq_of_find? [Std.TransOrd κ] [Std.LawfulEqOrd κ] {a b : List (κ × α)}
    (ha : Sorted a) (hb : Sorted b) (h : ∀ k, find? k a = find? k b) : a = b := by
  have hmem : ∀ e, e ∈ a ↔ e ∈ b := fun e => by
    rw [← find?_eq_some_iff ha, ← find?_eq_some_iff hb, h]
  have hne : ∀ {x y : κ × α}, compare x.1 y.1 = .lt → x ≠ y := by
    rintro x y hlt rfl
    simp at hlt
  have hperm : a.Perm b :=
    (List.perm_ext_iff_of_nodup (ha.imp hne) (hb.imp hne)).2 hmem
  refine hperm.eq_of_pairwise (fun x y _ _ hxy hyx => ?_) ha hb
  exact absurd (Std.TransCmp.lt_trans hxy hyx) (by simp)

theorem find?_foldl_insert [Std.TransOrd κ] [Std.LawfulEqOrd κ] {entries : List (κ × α)}
    (hs : Sorted entries) (base : List (κ × α)) (k : κ) :
    find? k (entries.foldl (fun d e => insert e.1 e.2 d) base) =
      (find? k entries).or (find? k base) := by
  induction entries generalizing base with
  | nil => simp [find?]
  | cons hd rest ih =>
    obtain ⟨hlt, hrest⟩ := List.pairwise_cons.1 hs
    rw [List.foldl_cons, ih hrest, find?_insert]
    by_cases hk : k = hd.1
    · subst hk
      have hnone : find? hd.1 rest = none := find?_eq_none_of_lt hlt
      simp [find?, hnone]
    · simp [find?, hk]

end Ascending

namespace SortedMap

variable {κ α : Type} [Ord κ]

@[simp] theorem find?_empty (k : κ) : (empty : SortedMap κ α).find? k = none := rfl

@[simp] theorem find?_erase [Std.LawfulEqOrd κ] [DecidableEq κ] (m : SortedMap κ α)
    (k k' : κ) : (m.erase k).find? k' = if k' = k then none else m.find? k' :=
  Ascending.find?_erase k k' m.entries

variable [Std.TransOrd κ]

theorem entries_foldl_insert (entries : List (κ × α)) (base : SortedMap κ α) :
    (entries.foldl (fun m e => m.insert e.1 e.2) base).entries =
      entries.foldl (fun d e => Ascending.insert e.1 e.2 d) base.entries := by
  induction entries generalizing base with
  | nil => rfl
  | cons hd rest ih => exact ih _

variable [Std.LawfulEqOrd κ]

theorem eq_of_find? {a b : SortedMap κ α} (h : ∀ k, a.find? k = b.find? k) : a = b :=
  ext (Ascending.eq_of_find? a.sorted b.sorted h)

@[simp] theorem find?_insert [DecidableEq κ] (m : SortedMap κ α) (k k' : κ) (v : α) :
    (m.insert k v).find? k' = if k' = k then some v else m.find? k' := by
  simp [find?_insert']

@[simp] theorem ofList_entries (m : SortedMap κ α) : ofList m.entries = m := by
  refine eq_of_find? fun k => ?_
  rw [find?, ofList, entries_foldl_insert, Ascending.find?_foldl_insert m.sorted]
  simp [empty, Ascending.find?, find?]

end SortedMap

namespace SortedSet

variable {κ : Type} [Ord κ]

@[simp] theorem contains_empty (k : κ) : contains (.empty : SortedSet κ) k = false := rfl

theorem ascending_elements (s : SortedSet κ) :
    s.elements.Pairwise (fun a b => compare a b = .lt) :=
  List.pairwise_map.2 s.sorted

variable [Std.LawfulEqOrd κ]

theorem nodup_elements (s : SortedSet κ) : s.elements.Nodup := by
  refine s.ascending_elements.imp ?_
  rintro a _ hlt rfl
  simp at hlt

@[simp] theorem mem_elements {s : SortedSet κ} {k : κ} :
    k ∈ s.elements ↔ s.contains k = true := by
  rw [elements, List.mem_map, contains, Option.isSome_iff_exists]
  constructor
  · rintro ⟨⟨k', ⟨⟩⟩, hm, rfl⟩
    exact ⟨(), (Ascending.find?_eq_some_iff s.sorted).2 hm⟩
  · rintro ⟨⟨⟩, hf⟩
    exact ⟨_, (Ascending.find?_eq_some_iff s.sorted).1 hf, rfl⟩

@[simp] theorem contains_erase [DecidableEq κ] (s : SortedSet κ) (k k' : κ) :
    SortedSet.contains (SortedMap.erase s k) k' = (decide (k' ≠ k) && s.contains k') := by
  by_cases h : k' = k <;> simp [contains, h]

variable [Std.TransOrd κ]

@[simp] theorem contains_insert [DecidableEq κ] (s : SortedSet κ) (k k' : κ) :
    (s.insert k).contains k' = (decide (k' = k) || s.contains k') := by
  by_cases h : k' = k <;> simp [contains, insert, h]

theorem eq_of_contains {s t : SortedSet κ} (h : ∀ k, s.contains k = t.contains k) : s = t := by
  refine SortedMap.eq_of_find? fun k => ?_
  have hk := h k
  simp only [contains] at hk
  cases hs : s.find? k <;> cases ht : t.find? k <;> simp_all

theorem insert_of_contains [DecidableEq κ] {s : SortedSet κ} {k : κ} (h : s.contains k = true) :
    s.insert k = s :=
  eq_of_contains fun k' => by by_cases hk : k' = k <;> simp [hk, h]

theorem contains_foldl_insert [DecidableEq κ] (ks : List κ) (s : SortedSet κ) (k : κ) :
    (ks.foldl SortedSet.insert s).contains k = (decide (k ∈ ks) || s.contains k) := by
  induction ks generalizing s with
  | nil => simp
  | cons k' ks ih =>
    rw [List.foldl_cons, ih]
    by_cases h : k = k' <;> simp [h]

/-- A set rebuilt from its elements is the same set. -/
@[simp] theorem ofElements_elements [DecidableEq κ] (s : SortedSet κ) :
    ofElements s.elements = s := by
  refine eq_of_contains fun k => ?_
  rw [ofElements, contains_foldl_insert, contains_empty]
  by_cases h : s.contains k = true <;> simp_all

theorem mem_elements_insert {s : SortedSet κ} {k k' : κ} :
    k' ∈ (s.insert k).elements ↔ k' = k ∨ k' ∈ s.elements := by
  classical simp

theorem mem_elements_ofElements {ks : List κ} {k : κ} :
    k ∈ (ofElements ks).elements ↔ k ∈ ks := by
  classical simp [ofElements, contains_foldl_insert]

theorem ofElements_congr {ks ls : List κ} (h : ∀ k, k ∈ ks ↔ k ∈ ls) :
    ofElements ks = ofElements ls := by
  refine eq_of_contains fun k => Bool.eq_iff_iff.2 ?_
  rw [← mem_elements, ← mem_elements, mem_elements_ofElements, mem_elements_ofElements, h]

theorem isEmpty_iff {s : SortedSet κ} : s.isEmpty = true ↔ ∀ k, s.contains k = false := by
  constructor
  · intro h k
    have he : s.elements = [] := by simpa [elements, SortedMap.isEmpty] using h
    have hk : k ∉ s.elements := by simp [he]
    simpa using hk
  · intro h
    have he : s = .empty := eq_of_contains h
    simp [he, SortedMap.isEmpty, SortedMap.empty]

end SortedSet

end ChainState
