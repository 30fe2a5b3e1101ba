import ChainState.Proofs.BestChain

/-!
# The rows of the height index

The index has a row for a best-chain block at its height, and is brought up to
date from a list of noted blocks alone: each is entered if the best chain
names it now, and taken out if not. A block may be noted often, beside others
of its height, and in an order that has nothing to do with how things ended.
As long as whatever has changed is noted, all rows are right at the end.
-/

set_option autoImplicit false

namespace ChainState

namespace HeightIndex

def row (index : HeightIndex) (chain : Bytes) (height : Int64) : Option Hash :=
  (ofChain index chain).find? height

section

variable (index : HeightIndex) (chain c : Bytes) (height n : Int64) (hash : Hash)

theorem row_enter : row (enter index chain height hash) c n =
    if chain = c ∧ height = n then some hash else row index c n := by
  by_cases hc : chain = c
  · subst hc
    simp [row, enter, ofChain, eq_comm]
  · simp [row, enter, ofChain, Std.HashMap.getElem?_insert, hc]

theorem row_leave : row (leave index chain height hash) c n =
    if (chain = c ∧ height = n) ∧ row index c n = some hash then none else row index c n := by
  by_cases hrow : row index chain height = some hash
  · have hleave : leave index chain height hash =
        index.insert chain ((ofChain index chain).erase height) := if_pos hrow
    rw [hleave]
    by_cases hc : chain = c
    · subst hc
      by_cases hn : height = n
      · subst hn
        rw [if_pos ⟨⟨rfl, rfl⟩, hrow⟩]
        simp [row, ofChain]
      · simp [row, ofChain, hn, Ne.symm hn]
    · simp [row, ofChain, Std.HashMap.getElem?_insert, hc]
  · have hleave : leave index chain height hash = index := if_neg hrow
    rw [hleave, if_neg]
    rintro ⟨⟨rfl, rfl⟩, h⟩
    exact hrow h

end

def settle (wanted held : Option Hash) (hash : Hash) : Option Hash :=
  if wanted = some hash then some hash else if held = some hash then none else held

theorem settle_eq_some_iff {wanted held : Option Hash} {hash x : Hash}
    (h : (held = some x ↔ wanted = some x) ∨ hash = x) :
    settle wanted held hash = some x ↔ wanted = some x := by
  rw [settle]
  split
  · next hw => rw [hw]
  · next hw =>
    by_cases hx : hash = x
    · subst hx
      refine iff_of_false ?_ hw
      split
      · simp
      · assumption
    · have hcell := h.resolve_right hx
      split
      · next hheld =>
        refine iff_of_false (by simp) fun hwant => hx ?_
        exact Option.some.inj (hheld.symm.trans (hcell.2 hwant))
      · exact hcell

section

variable [Crypto]

open Repository (indexBlock)

/-- The rows are those wanted, but for the cells of the blocks still to come. -/
def Pending (noted : List Block) (index : HeightIndex)
    (wanted : Bytes → Int64 → Option Hash) : Prop :=
  ∀ c n x, ¬ (row index c n = some x ↔ wanted c n = some x) →
    ∃ b ∈ noted, b.chain = c ∧ b.height = n ∧ b.hash = x

def status (wanted : Bytes → Int64 → Option Hash) (b : Block) : Block × Bool :=
  (b, wanted b.chain b.height = some b.hash)

variable {noted : List Block} {index : HeightIndex} {wanted : Bytes → Int64 → Option Hash}

theorem row_indexBlock (b : Block) (c : Bytes) (n : Int64) :
    row (indexBlock index (status wanted b)) c n =
      if b.chain = c ∧ b.height = n then settle (wanted c n) (row index c n) b.hash
      else row index c n := by
  by_cases hw : wanted b.chain b.height = some b.hash
  · have hstep : indexBlock index (status wanted b) =
        enter index b.chain b.height b.hash := if_pos (decide_eq_true hw)
    rw [hstep, row_enter]
    split
    · next h =>
      obtain ⟨rfl, rfl⟩ := h
      rw [settle, if_pos hw]
    · rfl
  · have hstep : indexBlock index (status wanted b) =
        leave index b.chain b.height b.hash := if_neg (by simpa [status] using hw)
    rw [hstep, row_leave]
    by_cases h : b.chain = c ∧ b.height = n
    · obtain ⟨rfl, rfl⟩ := h
      simp [settle, hw]
    · simp [h]

theorem Pending.indexBlock {b : Block} {rest : List Block} (h : Pending (b::rest) index wanted) :
    Pending rest (indexBlock index (status wanted b)) wanted := by
  intro c n x hdiffer
  rw [row_indexBlock] at hdiffer
  by_contra hrest
  -- the cell was in order, or this is the block that it awaited
  have hcell : (row index c n = some x ↔ wanted c n = some x) ∨
      b.chain = c ∧ b.height = n ∧ b.hash = x := by
    by_contra hcell
    obtain ⟨hbefore, hother⟩ := not_or.1 hcell
    obtain ⟨a, ha, hcase⟩ := h c n x hbefore
    rcases List.mem_cons.1 ha with rfl | ha
    · exact hother hcase
    · exact hrest ⟨a, ha, hcase⟩
  apply hdiffer
  split
  · exact settle_eq_some_iff (hcell.imp id fun h => h.2.2)
  · next hother => exact hcell.resolve_right fun h => hother ⟨h.1, h.2.1⟩

/-- Once all noted blocks have been dealt with, every row is the one wanted. -/
theorem Pending.foldl_indexBlock (h : Pending noted index wanted) (c : Bytes) (n : Int64) :
    row ((noted.map (status wanted)).foldl Repository.indexBlock index) c n = wanted c n := by
  induction noted generalizing index with
  | nil =>
    refine Option.ext fun x => ?_
    by_contra hdiffer
    obtain ⟨b, hb, -⟩ := h c n x hdiffer
    cases hb
  | cons b rest ih => exact ih h.indexBlock

end

end HeightIndex

section

variable [Crypto] {noted : List Block}

namespace Book

open HeightIndex (row Pending)

/-- Every block that is on a best chain of one of the two books alone is among
those noted. -/
def Covers (noted : List Block) (A B : Book) : Prop :=
  ∀ c b, ¬ (b ∈ A.main c ↔ b ∈ B.main c) → b ∈ noted.map Block.stored

variable {more : List Block} {A B C : Book} {K : Registry} {index : HeightIndex}

theorem covers_of_eq (noted : List Block) (h : B.main = A.main) : Covers noted A B := by
  intro c b hdiffer
  rw [h] at hdiffer
  exact absurd Iff.rfl hdiffer

theorem Covers.symm (h : Covers noted A B) : Covers noted B A :=
  fun c b hdiffer => h c b (mt Iff.symm hdiffer)

theorem Covers.trans (h : Covers noted A B) (h' : Covers more B C) :
    Covers (noted ++ more) A C := by
  intro c b hdiffer
  rw [List.map_append, List.mem_append]
  by_cases hfirst : b ∈ A.main c ↔ b ∈ B.main c
  · exact .inr (h' c b fun hsecond => hdiffer (hfirst.trans hsecond))
  · exact .inl (h c b hfirst)

def hashAt (A : Book) (chain : Bytes) (height : Int64) : Option Hash :=
  (A.mainAt chain height).map Block.hash

theorem hashAt_eq_some (hA : A.Sound K) {c : Bytes} {n : Int64} {x : Hash} :
    A.hashAt c n = some x ↔ ∃ b ∈ A.main c, b.height = n ∧ b.hash = x := by
  simp only [hashAt, Option.map_eq_some_iff, mainAt_eq_some hA, and_assoc]

theorem Covers.pending (hA : A.Sound K) (hB : B.Sound K) (h : Covers noted A B)
    (hrows : ∀ c n, row index c n = A.hashAt c n) : Pending noted index B.hashAt := by
  have hcell : ∀ (D : Book), D.Sound K → ∀ c, ∀ b ∈ D.main c,
      ¬ (b ∈ A.main c ↔ b ∈ B.main c) →
        ∃ a ∈ noted, a.chain = c ∧ a.height = b.height ∧ a.hash = b.hash := by
    intro D hD c b hb hdiffer
    obtain ⟨a, ha, rfl⟩ := List.mem_map.1 (h c b hdiffer)
    have hchain := hD.chain c _ hb
    exact ⟨a, ha, by simpa using hchain, by simp, by simp⟩
  intro c n x hdiffer
  rw [hrows, hashAt_eq_some hA, hashAt_eq_some hB] at hdiffer
  by_contra hnone
  apply hdiffer
  constructor
  · rintro ⟨b, hb, rfl, rfl⟩
    by_contra hoff
    exact hnone (hcell A hA c b hb fun hiff => hoff ⟨b, hiff.1 hb, rfl, rfl⟩)
  · rintro ⟨b, hb, rfl, rfl⟩
    by_contra hoff
    exact hnone (hcell B hB c b hb fun hiff => hoff ⟨b, hiff.2 hb, rfl, rfl⟩)

theorem Sound.sorted_rows (hA : A.Sound K) (c : Bytes) :
    Ascending.Sorted ((A.main c).map fun b => (b.height, b.hash)) := by
  rw [Ascending.Sorted, List.pairwise_map]
  exact (hA.heights_lt c).imp fun h => Std.compare_eq_lt.2 (Int64.lt_iff_toInt_lt.2 h)

theorem Sound.entries_eq (hA : A.Sound K) {c : Bytes} {rows : SortedMap Int64 Hash}
    (h : ∀ n, rows.find? n = A.hashAt c n) :
    rows.entries = (A.main c).map fun b => (b.height, b.hash) := by
  refine Ascending.eq_of_find? rows.sorted (hA.sorted_rows c) fun n => (h n).trans ?_
  refine Option.ext fun x => ?_
  rw [hashAt_eq_some hA, Ascending.find?_eq_some_iff (hA.sorted_rows c)]
  simp

end Book

def Repository.heightRows (r : Repository) (chain : Bytes) : List (Int64 × Hash) :=
  (HeightIndex.ofChain r.store.heights chain).entries

theorem Repository.range_eq {r : Repository} {c : Bytes} {main : List Block}
    (hstored : ∀ b ∈ main, r.findBlock b.hash = .ok (some b))
    (hrows : r.heightRows c = main.map fun b => (b.height, b.hash)) (start : Int64) (limit : Nat) :
    r.range c start limit = .ok ((main.filter (start ≤ ·.height)).take limit) := by
  have hentries : ((r.store.heights[c]?).getD .empty).entries =
      main.map fun b => (b.height, b.hash) := hrows
  have hfilter : (main.map fun b => (b.height, b.hash)).filter (fun e => start ≤ e.1) =
      (main.filter (start ≤ ·.height)).map fun b => (b.height, b.hash) := List.filter_map
  have hfind : ((main.filter (start ≤ ·.height)).take limit).mapM (fun b => r.findBlock b.hash) =
      .ok (((main.filter (start ≤ ·.height)).take limit).map some) :=
    mapM_ok fun b hb => hstored b (List.mem_of_mem_filter (List.mem_of_mem_take hb))
  have hrun : (((main.filter (start ≤ ·.height)).take limit).map fun b =>
      (b.height, b.hash)).mapM (fun e => r.findBlock e.2) =
        .ok (((main.filter (start ≤ ·.height)).take limit).map some) :=
    List.mapM_map.trans hfind
  rw [range, hentries, hfilter, ← List.map_take, hrun]
  exact congrArg Except.ok (by simp [List.filterMap_map])

end

end ChainState
