import ChainState.Proofs.BestChain

/-!
# What is stored is listed

Blocks and height records are written apart from each other. After any history
they agree all the same: a stored block is listed at its own height, on the
best chain or beside it, and every hash that a height lists is that of a block
stored for this height.
-/

set_option autoImplicit false

namespace ChainState

theorem HeightRecord.all_ne_nil {record : HeightRecord} (h : record.isEmpty = false) :
    record.all ≠ [] := by
  intro hnil
  obtain ⟨hmain, hforks⟩ := List.append_eq_nil_iff.1 hnil
  have hempty : record.isEmpty = true := by
    simp_all [isEmpty, SortedMap.isEmpty, SortedSet.elements]
  rw [hempty] at h
  cases h

section

variable [Crypto]

/-- No stored block is missing from the height records, and no hash in them
dangles. -/
structure Listings (r : Repository) : Prop where
  /-- The block is on the best chain or a fork, and not both. -/
  listed : ∀ hash bytes, r.value (.block hash) = some bytes → ∃ b record,
    Block.decode bytes = .ok b ∧ b.hash = hash ∧
    r.findHeight b.chain b.height = .ok (some record) ∧
    Xor (record.main = some hash) (hash ∈ record.forks.elements)
  /-- A record that is kept lists something. -/
  stored : ∀ chain height bytes, r.value (.height chain height) = some bytes → ∃ record,
    HeightRecord.decode bytes = .ok record ∧ record.all ≠ [] ∧
    ∀ hash ∈ record.all, ∃ b, r.findBlock hash = .ok (some b) ∧ b.hash = hash ∧
      b.chain = chain ∧ b.height = height

variable {K : Registry} {A : Book} {r : Repository} {b : Block}

namespace Book.Lists

variable {c : Bytes} {n : Int64} {record : HeightRecord}

theorem main_of_mem (h : A.Lists b.chain b.height record) (hA : A.Sound K)
    (hb : b ∈ A.main b.chain) :
    record.main = some b.hash ∧ b.hash ∉ record.forks.elements := by
  refine ⟨(h.main _).2 ⟨b, hb, rfl, rfl⟩, fun hmem => ?_⟩
  obtain ⟨f, hf, -, -, he⟩ := (h.forks _).1 (SortedSet.mem_elements.1 hmem)
  exact hA.hash_ne_of_fork hb hf he.symm

theorem fork_of_fork (h : A.Lists b.chain b.height record) (hA : A.Sound K) (hb : A.fork b) :
    record.main ≠ some b.hash ∧ b.hash ∈ record.forks.elements := by
  refine ⟨fun hmain => ?_, SortedSet.mem_elements.2 ((h.forks _).2 ⟨b, hb, rfl, rfl, rfl⟩)⟩
  obtain ⟨a, ha, -, he⟩ := (h.main _).1 hmain
  exact hA.hash_ne_of_fork ha hb he

theorem xor_of_holds (h : A.Lists b.chain b.height record) (hA : A.Sound K) (hb : A.Holds b) :
    Xor (record.main = some b.hash) (b.hash ∈ record.forks.elements) := by
  rcases hb with hb | hb
  · exact .inl (h.main_of_mem hA hb)
  · obtain ⟨hmain, hfork⟩ := h.fork_of_fork hA hb
    exact .inr ⟨hfork, hmain⟩

theorem holds_of_mem_all (h : A.Lists c n record) (hA : A.Sound K) {hash : Hash}
    (hmem : hash ∈ record.all) : ∃ b, A.Holds b ∧ b.hash = hash ∧ b.chain = c ∧ b.height = n := by
  rcases List.mem_append.1 hmem with hmain | hfork
  · obtain ⟨b, hb, hn, he⟩ := (h.main hash).1 (Option.mem_toList.1 hmain)
    exact ⟨b, hA.holds_of_mem hb, he, hA.chain c b hb, hn⟩
  · obtain ⟨f, hf, hc, hn, he⟩ := (h.forks hash).1 (SortedSet.mem_elements.1 hfork)
    exact ⟨f, .inr hf, he, hc, hn⟩

end Book.Lists

theorem Repository.Keeps.listings (hr : r.Keeps A) (hA : A.Sound K) : Listings r where
  listed hash bytes hv := by
    obtain ⟨b, hb, rfl, rfl⟩ := (hr.block hash bytes).1 hv
    have hd := hA.decode_of_holds hb
    obtain ⟨o, hq, hl⟩ := hr.findHeight_eq b.chain b.height
    have hxor := hl.xor_of_holds hA hb
    cases o with
    | none => simp [HeightRecord.empty, Xor] at hxor
    | some record => exact ⟨b, record, hd, rfl, hq, hxor⟩
  stored c n bytes hv := by
    obtain ⟨record, hl, hwritten⟩ := hr.height c n
    rw [hv, HeightRecord.written] at hwritten
    split at hwritten
    · cases hwritten
    · next hempty =>
      obtain rfl : bytes = record.encode := Option.some.inj hwritten
      refine ⟨record, record.decode_encode, HeightRecord.all_ne_nil (by simpa using hempty), ?_⟩
      intro hash hmem
      obtain ⟨b, hb, rfl, hc, hn⟩ := hl.holds_of_mem_all hA hmem
      exact ⟨b, hr.findBlock_of_holds hA hb, rfl, hc, hn⟩

/-- After any history, refused calls included, the stored blocks and the
height records agree. -/
theorem ChainCall.run_listings {calls : List ChainCall}
    (h : Admissible (calls.filterMap block?)) : Listings (run calls) := by
  obtain ⟨A, hA, hr⟩ := keeps_of_admissible h
  exact hr.listings hA

end

section

attribute [local instance] checksum

def forkCalls : List ChainCall :=
  [.connectTip firstBlock, .connectTip secondBlock, .rollBack secondBlock]

theorem admissible_forkCalls : Admissible (forkCalls.filterMap ChainCall.block?) :=
  admissible_pair.mono (by simp [forkCalls, ChainCall.block?])

theorem holds_forkCalls : (ChainCall.book forkCalls).Holds secondBlock.stored := by
  have htip : ((ChainCall.book [.connectTip firstBlock, .connectTip secondBlock]).main
      secondBlock.chain).getLast? = some secondBlock.stored := by decide +kernel
  show (Book.after (ChainCall.book [.connectTip firstBlock, .connectTip secondBlock])
    (.rollBack secondBlock)).Holds secondBlock.stored
  rw [Book.after, if_pos htip]
  exact .inr (.inr rfl)

/-- The height of the second block lists it beside a best chain that ends below. -/
theorem ChainCall.run_listings_fork : Admissible (forkCalls.filterMap block?) ∧
    Spine (run forkCalls) [0x61] [firstBlock.stored] ∧
    ∃ record, (run forkCalls).findHeight [0x61] 1 = .ok (some record) ∧
      record.main = none ∧ secondBlock.stored.hash ∈ record.forks.elements := by
  have hmain : (book forkCalls).main [0x61] = [firstBlock.stored] := by decide +kernel
  have hplace : secondBlock.stored.chain = [0x61] ∧ secondBlock.stored.height = 1 := by
    decide +kernel
  have hspine := spine_book admissible_forkCalls [0x61]
  rw [hmain] at hspine
  obtain ⟨hA, hr⟩ := keeps_book admissible_forkCalls
  have hvalue := (hr.block _ _).2 ⟨secondBlock.stored, holds_forkCalls, rfl, rfl⟩
  obtain ⟨b, record, hdecode, -, hrecord, hlisted⟩ :=
    (run_listings admissible_forkCalls).listed _ _ hvalue
  obtain rfl : secondBlock.stored = b :=
    Except.ok.inj ((hA.decode_of_holds holds_forkCalls).symm.trans hdecode)
  rw [hplace.1, hplace.2] at hrecord
  have hfree := hspine.unlisted 1 (by decide +kernel)
  rw [Repository.mainHashAt, hrecord] at hfree
  have hnone : record.main = none := Except.ok.inj hfree
  refine ⟨admissible_forkCalls, hspine, record, hrecord, hnone, ?_⟩
  simpa [hnone, Xor] using hlisted

end

end ChainState
