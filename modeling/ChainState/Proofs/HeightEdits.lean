import ChainState.Proofs.Records
import ChainState.Proofs.Since

/-!
# A height record through its edits

Blocks of a height are promoted, demoted, added beside the best chain and
removed, in any order and any number of times, and in between the record is
written out and read back. What it lists then is what came in and was not
removed since, and it lists nothing twice.
-/

set_option autoImplicit false

namespace ChainState.HeightRecord

inductive Edit where
  | promote (hash : Hash)
  | demote (hash : Hash)
  | addFork (hash : Hash)
  | remove (hash : Hash)
  /-- The record is written out and read back. -/
  | reload
  deriving DecidableEq

namespace Edit

def apply (r : HeightRecord) : Edit → Except Bencode.ReadError HeightRecord
  | .promote hash => .ok (r.promote hash)
  | .demote hash => .ok (r.demote hash)
  | .addFork hash => .ok (r.addFork hash)
  | .remove hash => .ok (r.remove hash)
  | .reload => decode r.encode

def Enters (x : Hash) (e : Edit) : Prop := e = .promote x ∨ e = .addFork x

def Unseats (x : Hash) : Edit → Prop
  | .promote _ => True
  | .demote y | .remove y => y = x
  | .addFork _ | .reload => False

end Edit

/-- The record that edits make of the empty one. -/
def edited (edits : List Edit) : Except Bencode.ReadError HeightRecord :=
  edits.foldlM Edit.apply .empty

def Apart (r : HeightRecord) : Prop := ∀ x, r.main = some x → x ∉ r.forks.elements

section

variable {r : HeightRecord} {x hash : Hash}

theorem mem_all : x ∈ r.all ↔ r.main = some x ∨ x ∈ r.forks.elements := by
  rw [all, List.mem_append, Option.mem_toList]

theorem nodup_all (h : r.Apart) : r.all.Nodup := by
  refine List.nodup_append'.2 ⟨?_, r.forks.nodup_elements, fun x hx => ?_⟩
  · cases r.main <;> simp
  · exact h x (Option.mem_toList.1 hx)

theorem main_promote : (r.promote hash).main = some x ↔ x = hash := by
  simp [promote, eq_comm]

theorem forks_promote : x ∈ (r.promote hash).forks.elements ↔ x ∈ r.all ∧ x ≠ hash := by
  rw [mem_all]
  cases hmain : r.main with
  | none => simp [promote, hmain, and_comm]
  | some old =>
    -- the block that stood there is the one that goes in again, or it joins the forks
    by_cases hold : old = hash
    · subst hold
      simp [promote, hmain]
      grind
    · simp [promote, hmain, hold]
      grind

theorem mem_all_promote : x ∈ (r.promote hash).all ↔ x = hash ∨ x ∈ r.all := by
  rw [mem_all, main_promote, forks_promote]
  tauto

theorem main_demote : (r.demote hash).main = some x ↔ r.main = some x ∧ x ≠ hash := by
  rw [demote]
  split <;> grind

theorem forks_demote : x ∈ (r.demote hash).forks.elements ↔
    r.main = some hash ∧ x = hash ∨ x ∈ r.forks.elements := by
  rw [demote]
  split
  · next h => simp [h]
  · next h => simp [h]

theorem mem_all_demote : x ∈ (r.demote hash).all ↔ x ∈ r.all := by
  rw [mem_all, main_demote, forks_demote, mem_all]
  by_cases h : x = hash
  · simp [h]
  · simp [h]

theorem main_addFork : (r.addFork hash).main = r.main := by
  rw [addFork]
  split <;> rfl

theorem forks_addFork : x ∈ (r.addFork hash).forks.elements ↔
    r.main ≠ some hash ∧ x = hash ∨ x ∈ r.forks.elements := by
  rw [addFork]
  split
  · next h => simp [h]
  · next h => simp [h]

theorem mem_all_addFork : x ∈ (r.addFork hash).all ↔ x = hash ∨ x ∈ r.all := by
  rw [mem_all, main_addFork, forks_addFork, mem_all]
  by_cases h : x = hash
  · subst h
    tauto
  · simp [h]

theorem main_remove : (r.remove hash).main = some x ↔ r.main = some x ∧ x ≠ hash := by
  simp only [remove]
  split <;> grind

theorem forks_remove : x ∈ (r.remove hash).forks.elements ↔ x ∈ r.forks.elements ∧ x ≠ hash := by
  simp [remove, and_comm]

theorem mem_all_remove : x ∈ (r.remove hash).all ↔ x ∈ r.all ∧ x ≠ hash := by
  rw [mem_all, main_remove, forks_remove, mem_all, or_and_right]

theorem apart_promote (r : HeightRecord) (hash : Hash) : (r.promote hash).Apart :=
  fun _ hmain hfork => (forks_promote.1 hfork).2 (main_promote.1 hmain)

theorem Apart.demote (h : r.Apart) (hash : Hash) : (r.demote hash).Apart := by
  intro x hmain hfork
  obtain ⟨hmain, hne⟩ := main_demote.1 hmain
  rcases forks_demote.1 hfork with ⟨-, he⟩ | hfork
  · exact hne he
  · exact h x hmain hfork

theorem Apart.addFork (h : r.Apart) (hash : Hash) : (r.addFork hash).Apart := by
  intro x hmain hfork
  rw [main_addFork] at hmain
  rcases forks_addFork.1 hfork with ⟨hne, rfl⟩ | hfork
  · exact hne hmain
  · exact h x hmain hfork

theorem Apart.remove (h : r.Apart) (hash : Hash) : (r.remove hash).Apart :=
  fun x hmain hfork => h x (main_remove.1 hmain).1 (forks_remove.1 hfork).1

end

structure Tells (edits : List Edit) (r : HeightRecord) : Prop where
  main : ∀ x, r.main = some x ↔ Since (· = .promote x) (Edit.Unseats x) edits
  all : ∀ x, x ∈ r.all ↔ Since (Edit.Enters x) (· = .remove x) edits
  apart : r.Apart

theorem tells_empty : Tells [] .empty where
  main x := by simp [empty, not_since_nil]
  all x := by simp [mem_all, empty, not_since_nil]
  apart _ h := nomatch h

namespace Tells

variable {edits : List Edit} {r s : HeightRecord}

theorem concat {e : Edit} (h : Tells edits r)
    (hmain : ∀ x, s.main = some x ↔ e = .promote x ∨ r.main = some x ∧ ¬ e.Unseats x)
    (hall : ∀ x, x ∈ s.all ↔ e.Enters x ∨ x ∈ r.all ∧ e ≠ .remove x)
    (hapart : s.Apart) : Tells (edits ++ [e]) s where
  main x := by rw [since_concat, ← h.main, hmain]
  all x := by rw [since_concat, ← h.all, hall]
  apart := hapart

/-- Every edit goes through, and the record tells of it. -/
theorem apply (h : Tells edits r) (e : Edit) : ∃ s, e.apply r = .ok s ∧ Tells (edits ++ [e]) s := by
  cases e with
  | promote hash =>
    refine ⟨_, rfl, h.concat (fun x => ?_) (fun x => ?_) (apart_promote r hash)⟩
    · rw [main_promote]
      simp [Edit.Unseats, eq_comm]
    · rw [mem_all_promote]
      simp [Edit.Enters, eq_comm]
  | demote hash =>
    refine ⟨_, rfl, h.concat (fun x => ?_) (fun x => ?_) (h.apart.demote hash)⟩
    · rw [main_demote]
      simp [Edit.Unseats, eq_comm]
    · rw [mem_all_demote]
      simp [Edit.Enters]
  | addFork hash =>
    refine ⟨_, rfl, h.concat (fun x => ?_) (fun x => ?_) (h.apart.addFork hash)⟩
    · rw [main_addFork]
      simp [Edit.Unseats]
    · rw [mem_all_addFork]
      simp [Edit.Enters, eq_comm]
  | remove hash =>
    refine ⟨_, rfl, h.concat (fun x => ?_) (fun x => ?_) (h.apart.remove hash)⟩
    · rw [main_remove]
      simp [Edit.Unseats, eq_comm]
    · rw [mem_all_remove]
      simp [Edit.Enters, eq_comm]
  | reload =>
    refine ⟨r, r.decode_encode, h.concat (fun x => ?_) (fun x => ?_) h.apart⟩
    · simp [Edit.Unseats]
    · simp [Edit.Enters]

end Tells

theorem exists_edited (edits : List Edit) : ∃ r, edited edits = .ok r ∧ Tells edits r := by
  induction edits using List.reverseRecOn with
  | nil => exact ⟨.empty, rfl, tells_empty⟩
  | append_singleton edits e ih =>
    obtain ⟨r, hr, h⟩ := ih
    obtain ⟨s, hs, h⟩ := h.apply e
    refine ⟨s, ?_, h⟩
    rw [edited] at hr ⊢
    simp [List.foldlM_append, hr, hs, bind, Except.bind, pure, Except.pure]

/-- Whatever the edits, the record is there. Its best-chain block is not among
its forks, it lists no block twice, and it lists just the blocks that were
promoted or added and not removed since. On the best chain stands what was
promoted, unless another block was promoted since or it was demoted or removed. -/
theorem edited_lists (edits : List Edit) : ∃ r, edited edits = .ok r ∧
    (∀ x, r.main = some x → x ∉ r.forks.elements) ∧ r.all.Nodup ∧
    (∀ x, x ∈ r.all ↔ Since (Edit.Enters x) (· = .remove x) edits) ∧
    ∀ x, r.main = some x ↔ Since (· = .promote x) (Edit.Unseats x) edits := by
  obtain ⟨r, hr, h⟩ := exists_edited edits
  exact ⟨r, hr, h.apart, nodup_all h.apart, h.all, h.main⟩

def ones : Hash := .ofBytes (List.replicate 32 1)

/-- A block that another overtakes, and that is promoted again after a reload. -/
theorem edited_lists_overtaken :
    ∃ r, edited [.promote .zero, .promote ones, .reload, .promote .zero] = .ok r ∧
      r.main = some .zero ∧ .zero ∉ r.forks.elements ∧ ones ∈ r.all := by
  obtain ⟨r, hr, hapart, -, hall, hmain⟩ :=
    edited_lists [.promote .zero, .promote ones, .reload, .promote .zero]
  have hzero : r.main = some .zero :=
    (hmain _).2 ⟨[.promote .zero, .promote ones, .reload], _, [], rfl, rfl, by simp⟩
  have hones : ones ∈ r.all :=
    (hall _).2 ⟨[.promote .zero], _, [.reload, .promote .zero], rfl, .inl rfl, by simp⟩
  exact ⟨r, hr, hzero, hapart _ hzero, hones⟩

end ChainState.HeightRecord
