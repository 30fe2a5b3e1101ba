import ChainState.Proofs.Expiry
import ChainState.Proofs.HeightEdits

/-!
# Pruning is exact

Where the height records of a chain say what is so, pruning ends, takes the
forks that lost their parent, then at each next height those that lost theirs,
and counts them. It ends at the first height that gives up nothing, and every
other hash stays listed.
-/

set_option autoImplicit false

namespace ChainState

section

variable [Crypto]

/-- The record of a height, empty if there is none. -/
def Repository.recordAt (r : Repository) (chain : Bytes) (n : Int64) : HeightRecord :=
  match r.findHeight chain n with
  | .ok o => o.getD .empty
  | .error _ => .empty

theorem Repository.recordAt_eq {r : Repository} {chain : Bytes} {n : Int64}
    {o : Option HeightRecord} (h : r.findHeight chain n = .ok o) :
    r.recordAt chain n = o.getD .empty := by
  rw [recordAt, h]

namespace Repository

/-- What the height records of a chain say is so: they can be read, none lists
its best-chain block beside the best chain as well, and the forks that they list
are stored. -/
structure Catalogued (r : Repository) (chain : Bytes) : Prop where
  readable : ∀ n, ∃ o, r.findHeight chain n = .ok o
  apart : ∀ n record, r.findHeight chain n = .ok (some record) → record.Apart
  stored : ∀ n record, r.findHeight chain n = .ok (some record) → ∀ x ∈ record.forks.elements,
    ∃ b, r.findBlock x = .ok (some b) ∧ b.hash = x ∧ b.chain = chain ∧ b.height = n

/-- The block is stored, and listed at its height beside the best chain. -/
def ListsFork (r : Repository) (chain : Bytes) (b : Block) : Prop :=
  r.findBlock b.hash = .ok (some b) ∧
    ∃ record, r.findHeight chain b.height = .ok (some record) ∧ b.hash ∈ record.forks.elements

/-- `s` is `r` without the blocks of `gone`. -/
structure Forgets (r s : Repository) (chain : Bytes) (gone : Block → Prop) : Prop where
  erased : ∀ b, gone b → s.value (.block b.hash) = none ∧ s.value (.links b.hash) = none
  /-- A height that gives up forks keeps every other hash. A record that is left
  empty goes. -/
  unlisted : ∀ b, gone b → ∃ before after : HeightRecord,
    r.findHeight chain b.height = .ok (some before) ∧
    s.value (.height chain b.height) = after.written ∧ after.main = before.main ∧
    ∀ x, x ∈ after.forks.elements ↔ x ∈ before.forks.elements ∧ ¬ ∃ a, gone a ∧ a.hash = x
  frame : ∀ k, (∀ b, gone b → k ≠ .block b.hash ∧ k ≠ .links b.hash ∧
    k ≠ .height chain b.height) → s.value k = r.value k

variable {r s : Repository} {chain : Bytes}

theorem Catalogued.shelf (h : r.Catalogued chain) :
    Shelf r chain (fun n => (r.recordAt chain n).main) (r.ListsFork chain) where
  height n := by
    obtain ⟨o, hq⟩ := h.readable n
    refine ⟨o, hq, by rw [recordAt_eq hq], fun x => ?_⟩
    rw [← SortedSet.mem_elements]
    constructor
    · intro hx
      cases o with
      | none => cases hx
      | some record =>
        obtain ⟨b, hb, rfl, -, rfl⟩ := h.stored n record hq x hx
        exact ⟨b, ⟨hb, record, hq, hx⟩, rfl, rfl⟩
    · rintro ⟨b, ⟨-, record, hrecord, hx⟩, rfl, rfl⟩
      rw [hq, Except.ok.injEq] at hrecord
      rwa [hrecord]
  block _ hb := hb.1
  off := by
    rintro b ⟨-, record, hrecord, hx⟩ hmain
    rw [recordAt_eq hrecord] at hmain
    exact h.apart _ record hrecord _ hmain hx

end Repository

theorem Pruned.forgets {r s : Repository} {chain : Bytes} {main : Int64 → Option Hash}
    {gone : Block → Prop} (hshelf : Shelf r chain main (r.ListsFork chain))
    (h : Pruned r s chain main (r.ListsFork chain) gone) : r.Forgets s chain gone where
  erased := h.erased
  frame := h.frame
  unlisted b hb := by
    obtain ⟨-, before, hbefore, -⟩ := h.isFork b hb
    obtain ⟨o, hq, ho⟩ := hshelf.height b.height
    obtain rfl : o = some before := by simpa [hbefore] using hq.symm
    rw [Option.getD_some] at ho
    obtain ⟨after, hv⟩ := h.rewritten b hb
    obtain ⟨o, hq, rfl⟩ := Repository.findHeight_of_written hv
    obtain ⟨o', hq', hafter⟩ := h.shelf.height b.height
    obtain rfl : o = o' := by simpa [hq] using hq'
    refine ⟨before, _, hbefore, hv, hafter.main.trans ho.main.symm, fun x => ?_⟩
    rw [SortedSet.mem_elements, SortedSet.mem_elements, hafter.forks, ho.forks]
    constructor
    · rintro ⟨f, ⟨hf, hkept⟩, hn, rfl⟩
      refine ⟨⟨f, hf, hn, rfl⟩, ?_⟩
      rintro ⟨a, ha, he⟩
      exact hkept (hshelf.hash_inj (h.isFork a ha) hf he ▸ ha)
    · rintro ⟨⟨f, hf, hn, rfl⟩, hkept⟩
      exact ⟨f, ⟨hf, fun hg => hkept ⟨f, hg, rfl⟩⟩, hn, rfl⟩

theorem Orphan.exists_between {fork : Block → Prop} {height n : Int64} {removed : List Hash}
    {b : Block} (h : Orphan fork height removed b) (hlow : height ≤ n) (hhigh : n ≤ b.height) :
    ∃ a, Orphan fork height removed a ∧ a.height = n := by
  induction h with
  | @child b hf hn hp =>
    obtain rfl : n = height := Int64.le_antisymm (hn ▸ hhigh) hlow
    exact ⟨b, .child hf hn hp, hn⟩
  | @descendant a b ha hf hu ih =>
    by_cases hle : n ≤ a.height
    · exact ih hle
    · have hsucc := Checked.toInt_succ? hu.2
      have hn : n = b.height := by
        rw [Int64.le_iff_toInt_le] at hle hhigh
        exact Int64.toInt_inj.1 (by omega)
      exact ⟨b, .descendant ha hf hu, hn.symm⟩

/-- Pruning ends and gives the number of blocks that it takes. These are the
forks at `height` whose parent is in `removed`, and at each next height the forks
whose parent went at the height before, up to the first height where none goes.
No other record changes. -/
theorem Transition.pruneOrphans_exact {r : Repository} {chain : Bytes} (h : r.Catalogued chain)
    (height : Int64) (removed : List Hash) :
    ∃ count s, (pruneOrphans chain height removed).run.run r = (.ok count, s) ∧
      {b | Orphan (r.ListsFork chain) height removed b}.encard = count ∧
      (∀ b, Orphan (r.ListsFork chain) height removed b → ∀ n, height ≤ n → n ≤ b.height →
        ∃ a, Orphan (r.ListsFork chain) height removed a ∧ a.height = n) ∧
      r.Forgets s chain (Orphan (r.ListsFork chain) height removed) := by
  obtain ⟨count, s, hrun, hpruned, hcount⟩ := ends_pruneOrphans height removed h.shelf
  exact ⟨count, s, hrun, hcount, fun b hb n => hb.exists_between, hpruned.forgets h.shelf⟩

variable {K : Registry} {A : Book} {r : Repository}

theorem Repository.Keeps.listsFork_iff (hr : r.Keeps A) (hA : A.Sound K) {c : Bytes} {b : Block} :
    r.ListsFork c b ↔ A.forksOf c b := by
  obtain ⟨o, hq, hl⟩ := hr.findHeight_eq c b.height
  constructor
  · rintro ⟨hb, record, hrecord, hx⟩
    obtain rfl : o = some record := by simpa [hq] using hrecord
    obtain ⟨f, hf, hc, hn, he⟩ := (hl.forks _).1 (SortedSet.mem_elements.1 hx)
    have hfound := hr.findBlock_of_holds hA (.inr hf)
    rw [he, hb] at hfound
    obtain rfl : b = f := by simpa using hfound
    exact ⟨hf, hc⟩
  · rintro ⟨hf, rfl⟩
    obtain ⟨record, hrecord, -, hx⟩ := hr.fork_listed hf
    exact ⟨hr.findBlock_of_holds hA (.inr hf), record, hrecord, SortedSet.mem_elements.2 hx⟩

theorem Repository.Keeps.catalogued (hr : r.Keeps A) (hA : A.Sound K) (c : Bytes) :
    r.Catalogued c where
  readable n := by
    obtain ⟨o, hq, -⟩ := hr.findHeight_eq c n
    exact ⟨o, hq⟩
  apart n record hq x hmain hx := by
    obtain ⟨o, hq', hl⟩ := hr.findHeight_eq c n
    obtain rfl : o = some record := by simpa [hq] using hq'.symm
    obtain ⟨f, hf, -, -, rfl⟩ := (hl.forks x).1 (SortedSet.mem_elements.1 hx)
    obtain ⟨b, hb, -, he⟩ := (hl.main _).1 hmain
    exact hA.hash_ne_of_fork hb hf he
  stored n record hq x hx := by
    obtain ⟨o, hq', hl⟩ := hr.findHeight_eq c n
    obtain rfl : o = some record := by simpa [hq] using hq'.symm
    obtain ⟨f, hf, hc, hn, rfl⟩ := (hl.forks x).1 (SortedSet.mem_elements.1 hx)
    exact ⟨f, hr.findBlock_of_holds hA (.inr hf), rfl, hc, hn⟩

end

section

attribute [local instance] checksum

theorem orphan_forkedCalls (b : Block) :
    Orphan ((ForkCall.run forkedCalls).ListsFork opening.chain) payment.height [opening.hash] b ↔
      b = payment ∨ b = heir := by
  obtain ⟨K, hA, hr⟩ := keeps_forkedCalls
  have hfork {f : Block} (hf : f = payment ∨ f = heir) :
      (ForkCall.run forkedCalls).ListsFork opening.chain f := by
    rw [hr.listsFork_iff hA]
    refine ⟨(fork_forkedBook f).2 hf, ?_⟩
    rcases hf with rfl | rfl <;> decide +kernel
  have hpayment : Orphan ((ForkCall.run forkedCalls).ListsFork opening.chain) payment.height
      [opening.hash] payment := .child (hfork (.inl rfl)) rfl (by decide +kernel)
  constructor
  · intro h
    exact (fork_forkedBook b).1 ((hr.listsFork_iff hA).1 h.isFork).1
  · rintro (rfl | rfl)
    · exact hpayment
    · exact .descendant hpayment (hfork (.inr rfl)) (by decide +kernel)

/-- Where the opening is given up, two forks go, and the rival stays. -/
theorem Transition.pruneOrphans_exact_forked :
    (ForkCall.run forkedCalls).Catalogued opening.chain ∧
    ∃ s, (pruneOrphans opening.chain payment.height [opening.hash]).run.run
        (ForkCall.run forkedCalls) = (.ok 2, s) ∧
      s.value (.block payment.hash) = none ∧ s.value (.block heir.hash) = none ∧
      s.value (.block rival.hash) = (ForkCall.run forkedCalls).value (.block rival.hash) := by
  obtain ⟨K, hA, hr⟩ := keeps_forkedCalls
  have hcatalogued := hr.catalogued hA opening.chain
  obtain ⟨count, s, hrun, hcount, -, hforgets⟩ :=
    pruneOrphans_exact hcatalogued payment.height [opening.hash]
  have hpair : {b | Orphan ((ForkCall.run forkedCalls).ListsFork opening.chain) payment.height
      [opening.hash] b} = {payment, heir} := Set.ext orphan_forkedCalls
  have hne : payment ≠ heir := by decide +kernel
  rw [hpair, Set.encard_pair hne] at hcount
  obtain rfl : count = 2 := by exact_mod_cast hcount.symm
  refine ⟨hcatalogued, s, hrun, (hforgets.erased payment ((orphan_forkedCalls _).2 (.inl rfl))).1,
    (hforgets.erased heir ((orphan_forkedCalls _).2 (.inr rfl))).1, hforgets.frame _ ?_⟩
  intro b hb
  rcases (orphan_forkedCalls b).1 hb with rfl | rfl
  · exact ⟨by decide +kernel, by simp, by simp⟩
  · exact ⟨by decide +kernel, by simp, by simp⟩

end

end ChainState
