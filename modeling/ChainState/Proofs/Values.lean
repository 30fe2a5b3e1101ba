import ChainState.Proofs.History

/-!
# The book determines the records

Two repositories that keep one book have the same value under every key. The
best chain of a chain id alone determines the records of its ends and of the
spans and links along it, whatever else is stored.
-/

set_option autoImplicit false

namespace ChainState

theorem Links.Follows.unique {l l' : Links} {x : Hash} {threads : PublicKey → List Hash}
    (h : l.Follows x threads) (h' : l'.Follows x threads) : l' = l := by
  obtain ⟨block, previous, next⟩ := l
  obtain ⟨block', previous', next'⟩ := l'
  obtain rfl : block' = block := h'.block.trans h.block.symm
  obtain rfl : previous' = previous :=
    SortedMap.eq_of_find? fun pk => (h'.previous pk).trans (h.previous pk).symm
  obtain rfl : next' = next :=
    SortedMap.eq_of_find? fun pk => (h'.next pk).trans (h.next pk).symm
  rfl

def Key.OnMain (chain : Bytes) (nodes : List Hash) : Key → Prop
  | .tip c | .tail c | .span c _ => c = chain
  | .links x => x ∈ nodes
  | _ => False

variable [Crypto]

theorem Book.Lists.unique {A B : Book} {c : Bytes} {n : Int64} {record record' : HeightRecord}
    (h : A.Lists c n record) (h' : B.Lists c n record') (hm : B.main c = A.main c)
    (hfork : ∀ f, f.chain = c → f.height = n → (B.fork f ↔ A.fork f)) : record' = record := by
  obtain ⟨main, forks⟩ := record
  obtain ⟨main', forks'⟩ := record'
  have hmains : main' = main := Option.ext fun x => by
    have hx := h'.main x
    rw [hm] at hx
    exact hx.trans (h.main x).symm
  have hforks : forks' = forks := by
    refine SortedSet.eq_of_contains fun x => Bool.eq_iff_iff.2 ?_
    refine (h'.forks x).trans (Iff.trans ?_ (h.forks x).symm)
    constructor
    · rintro ⟨f, hf, hc, hn, hx⟩
      exact ⟨f, (hfork f hc hn).1 hf, hc, hn, hx⟩
    · rintro ⟨f, hf, hc, hn, hx⟩
      exact ⟨f, (hfork f hc hn).2 hf, hc, hn, hx⟩
  rw [hmains, hforks]

namespace Repository.Keeps

variable {A B : Book} {r s : Repository}

theorem value_onMain (hr : r.Keeps A) (hs : s.Keeps B) {c : Bytes} (hm : B.main c = A.main c)
    {k : Key} (hk : k.OnMain c (A.nodes c)) : s.value k = r.value k := by
  cases k with
  | tip d =>
    obtain rfl : d = c := hk
    rw [hs.tip, hr.tip, hm]
  | tail d =>
    obtain rfl : d = c := hk
    rw [hs.tail, hr.tail, hm]
  | span d pk =>
    obtain rfl : d = c := hk
    rw [(hs.threads d).span, (hr.threads d).span, Book.thread_congr hm]
  | links x =>
    obtain ⟨l, hl, hf⟩ := (hr.threads c).links x hk
    obtain ⟨l', hl', hf'⟩ := (hs.threads c).links x (by rwa [Book.nodes_congr hm])
    rw [Book.thread_congr hm] at hf'
    rw [hl, hl', hf.unique hf']
  | _ => exact hk.elim

theorem value_links (hr : r.Keeps A) (hs : s.Keeps B) (hm : B.main = A.main) (x : Hash) :
    s.value (.links x) = r.value (.links x) := by
  by_cases hx : ∃ c, x ∈ A.nodes c
  · obtain ⟨c, hc⟩ := hx
    exact hr.value_onMain hs (congrFun hm c) hc
  · have hnone : ∀ c, x ∉ A.nodes c := fun c hc => hx ⟨c, hc⟩
    rw [hr.bare x hnone]
    apply hs.bare
    intro c
    rw [Book.nodes_congr (congrFun hm c)]
    exact hnone c

theorem value_block (hr : r.Keeps A) (hs : s.Keeps B) {x : Hash}
    (hholds : ∀ b, b.hash = x → (B.Holds b ↔ A.Holds b)) :
    s.value (.block x) = r.value (.block x) := by
  refine Option.ext fun v => (hs.block x v).trans (Iff.trans ?_ (hr.block x v).symm)
  constructor
  · rintro ⟨b, hb, hx, hv⟩
    exact ⟨b, (hholds b hx).1 hb, hx, hv⟩
  · rintro ⟨b, hb, hx, hv⟩
    exact ⟨b, (hholds b hx).2 hb, hx, hv⟩

theorem value_block_of_known {K : Registry} (hA : A.Sound K) (hr : r.Keeps A) (hB : B.Sound K)
    (hs : s.Keeps B) {b : Block} (hb : K.known b) (hholds : B.Holds b ↔ A.Holds b) :
    s.value (.block b.hash) = r.value (.block b.hash) := by
  refine hr.value_block hs fun f hf => ⟨fun hf' => ?_, fun hf' => ?_⟩
  · obtain rfl := K.hash_inj f b (hB.holds_known hf') hb hf
    exact hholds.1 hf'
  · obtain rfl := K.hash_inj f b (hA.holds_known hf') hb hf
    exact hholds.2 hf'

theorem value_height (hr : r.Keeps A) (hs : s.Keeps B) {c : Bytes} {n : Int64}
    (hm : B.main c = A.main c)
    (hfork : ∀ f, f.chain = c → f.height = n → (B.fork f ↔ A.fork f)) :
    s.value (.height c n) = r.value (.height c n) := by
  obtain ⟨record, hl, hv⟩ := hr.height c n
  obtain ⟨record', hl', hv'⟩ := hs.height c n
  rw [hv, hv', hl.unique hl' hm hfork]

/-- Two repositories that keep one book have the same values. -/
theorem value_eq (hr : r.Keeps A) (hs : s.Keeps A) (k : Key) : s.value k = r.value k := by
  cases k with
  | block x => exact hr.value_block hs fun _ _ => Iff.rfl
  | links x => exact hr.value_links hs rfl x
  | height c n => exact hr.value_height hs rfl fun _ _ _ => Iff.rfl
  | chains => rw [hs.chains, hr.chains]
  | tip c | tail c | span c pk => exact hr.value_onMain hs rfl rfl

end Repository.Keeps

end ChainState
