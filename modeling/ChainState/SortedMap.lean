import ChainState.Bytes

/-!
# Maps in key order

A map is the list of its entries in ascending key order. Two maps with the
same entries are equal, so a map that is written out in order and read back
is the same value. A set is a map that carries nothing beside its keys.
-/

set_option autoImplicit false

namespace ChainState

namespace Ascending

variable {κ α : Type} [Ord κ]

def insert (k : κ) (v : α) : List (κ × α) → List (κ × α)
  | [] => [(k, v)]
  | (k', v')::rest =>
    match compare k k' with
    | .lt => (k, v)::(k', v')::rest
    | .eq => (k, v)::rest
    | .gt => (k', v')::insert k v rest

def erase (k : κ) (entries : List (κ × α)) : List (κ × α) :=
  entries.filter (fun e => compare k e.1 != .eq)

def find? (k : κ) : List (κ × α) → Option α
  | [] => none
  | (k', v')::rest => if compare k k' = .eq then some v' else find? k rest

/-- Keys rise from entry to entry. -/
def Sorted (entries : List (κ × α)) : Prop :=
  entries.Pairwise (fun a b => compare a.1 b.1 = .lt)

theorem mem_insert {k : κ} {v : α} {entries : List (κ × α)} {e : κ × α}
    (h : e ∈ insert k v entries) : e = (k, v) ∨ e ∈ entries := by
  induction entries with
  | nil => simpa [insert] using h
  | cons hd rest ih =>
    rw [insert] at h
    split at h
    · simpa using h
    · rcases List.mem_cons.1 h with h | h
      · exact .inl h
      · exact .inr (List.mem_cons_of_mem _ h)
    · rcases List.mem_cons.1 h with h | h
      · exact .inr (by simp [h])
      · exact (ih h).imp id (List.mem_cons_of_mem _)

theorem sorted_insert [Std.TransOrd κ] (k : κ) (v : α) {entries : List (κ × α)}
    (h : Sorted entries) : Sorted (insert k v entries) := by
  induction entries with
  | nil => simp [insert, Sorted]
  | cons hd rest ih =>
    obtain ⟨hd_lt, rest_sorted⟩ := List.pairwise_cons.1 h
    rw [insert]
    split
    · next hk =>
      refine List.pairwise_cons.2 ⟨fun e he => ?_, h⟩
      rcases List.mem_cons.1 he with rfl | he
      · exact hk
      · exact Std.TransCmp.lt_trans hk (hd_lt e he)
    · next hk =>
      exact List.pairwise_cons.2
        ⟨fun e he => Std.TransCmp.lt_of_eq_of_lt hk (hd_lt e he), rest_sorted⟩
    · next hk =>
      refine List.pairwise_cons.2 ⟨fun e he => ?_, ih rest_sorted⟩
      rcases mem_insert he with rfl | he
      · exact Std.OrientedCmp.lt_of_gt hk
      · exact hd_lt e he

theorem sorted_erase (k : κ) {entries : List (κ × α)} (h : Sorted entries) :
    Sorted (erase k entries) :=
  List.Pairwise.filter _ h

theorem find?_insert [Std.TransOrd κ] [Std.LawfulEqOrd κ] (k k' : κ) (v : α)
    (entries : List (κ × α)) :
    find? k' (insert k v entries) =
      if compare k' k = .eq then some v else find? k' entries := by
  induction entries with
  | nil => simp [insert, find?]
  | cons hd rest ih =>
    obtain ⟨k₀, v₀⟩ := hd
    rw [insert]
    split
    · simp [find?]
    · next hk =>
      obtain rfl := Std.LawfulEqCmp.eq_of_compare hk
      by_cases h : compare k' k = .eq <;> simp [find?, h]
    · next hk =>
      by_cases h₀ : compare k' k₀ = .eq
      · have hk' : compare k' k ≠ .eq := by
          intro h
          obtain rfl := Std.LawfulEqCmp.eq_of_compare h
          rw [h₀] at hk
          exact absurd hk (by decide)
        simp [find?, h₀, hk']
      · simp [find?, h₀, ih]

end Ascending

structure SortedMap (κ α : Type) [Ord κ] where
  entries : List (κ × α)
  sorted : Ascending.Sorted entries

namespace SortedMap

variable {κ α : Type} [Ord κ]

theorem ext {a b : SortedMap κ α} (h : a.entries = b.entries) : a = b := by
  cases a
  cases b
  cases h
  rfl

instance [DecidableEq κ] [DecidableEq α] : DecidableEq (SortedMap κ α) := fun a b =>
  if h : a.entries = b.entries then isTrue (ext h) else isFalse (fun e => h (e ▸ rfl))

def empty : SortedMap κ α := ⟨[], .nil⟩

instance : Inhabited (SortedMap κ α) := ⟨empty⟩

def insert [Std.TransOrd κ] (m : SortedMap κ α) (k : κ) (v : α) : SortedMap κ α :=
  ⟨Ascending.insert k v m.entries, Ascending.sorted_insert k v m.sorted⟩

def erase (m : SortedMap κ α) (k : κ) : SortedMap κ α :=
  ⟨Ascending.erase k m.entries, Ascending.sorted_erase k m.sorted⟩

def find? (m : SortedMap κ α) (k : κ) : Option α := Ascending.find? k m.entries

def isEmpty (m : SortedMap κ α) : Bool := m.entries.isEmpty

def ofList [Std.TransOrd κ] (entries : List (κ × α)) : SortedMap κ α :=
  entries.foldl (fun m e => m.insert e.1 e.2) empty

theorem find?_insert' [Std.TransOrd κ] [Std.LawfulEqOrd κ] (m : SortedMap κ α)
    (k k' : κ) (v : α) :
    (m.insert k v).find? k' = if compare k' k = .eq then some v else m.find? k' :=
  Ascending.find?_insert k k' v m.entries

end SortedMap

abbrev SortedSet (κ : Type) [Ord κ] := SortedMap κ Unit

namespace SortedSet

variable {κ : Type} [Ord κ]

def elements (s : SortedSet κ) : List κ := s.entries.map (·.1)

def insert [Std.TransOrd κ] (s : SortedSet κ) (k : κ) : SortedSet κ := SortedMap.insert s k ()

def contains (s : SortedSet κ) (k : κ) : Bool := (s.find? k).isSome

def ofElements [Std.TransOrd κ] (ks : List κ) : SortedSet κ :=
  ks.foldl SortedSet.insert .empty

end SortedSet

end ChainState
