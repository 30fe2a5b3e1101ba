import ChainState.Proofs.BlockForm
import ChainState.Proofs.Threads

/-!
# The book a repository keeps

A book says in plain lists what the records of a repository encode: the best
chain of every chain id from its tail to its tip, the blocks stored beside
them, and the set of chain ids. `Keeps` relates every record to the book, so
that queries are answered from the book alone.
-/

set_option autoImplicit false

namespace ChainState

variable [Crypto]

/-- Blocks in their stored form, among which a hash names one. -/
structure Registry where
  known : Block → Prop
  sized : ∀ b, known b → b.Sized
  stored : ∀ b, known b → b.stored = b
  hash_ne_zero : ∀ b, known b → b.hash ≠ .zero
  hash_inj : ∀ a b, known a → known b → a.hash = b.hash → a = b

def Block.Under (a b : Block) : Prop :=
  b.parent = a.hash ∧ Checked.succ? a.height = some b.height

instance (a b : Block) : Decidable (a.Under b) := inferInstanceAs (Decidable (_ ∧ _))

@[ext] structure Book where
  /-- The best chain, the tail first. -/
  main : Bytes → List Block
  fork : Block → Prop
  chains : SortedSet Bytes

namespace Book

def empty : Book := ⟨fun _ => [], fun _ => False, .empty⟩

def Holds (A : Book) (b : Block) : Prop := b ∈ A.main b.chain ∨ A.fork b

def nodes (A : Book) (chain : Bytes) : List Hash := (A.main chain).map Block.hash

def naming (A : Book) (chain : Bytes) (pk : PublicKey) : List Block :=
  (A.main chain).filter (pk ∈ ·.affected)

def thread (A : Book) (chain : Bytes) (pk : PublicKey) : List Hash :=
  (A.naming chain pk).map Block.hash

theorem nodes_congr {A B : Book} {c : Bytes} (h : B.main c = A.main c) :
    B.nodes c = A.nodes c := by
  rw [nodes, h, nodes]

theorem thread_congr {A B : Book} {c : Bytes} (h : B.main c = A.main c) :
    B.thread c = A.thread c := by
  funext pk
  rw [thread, naming, h, thread, naming]

/-- What the record of a height says. -/
structure Lists (A : Book) (chain : Bytes) (height : Int64) (record : HeightRecord) : Prop where
  main : ∀ x, record.main = some x ↔ ∃ b ∈ A.main chain, b.height = height ∧ b.hash = x
  forks : ∀ x, record.forks.contains x = true ↔
    ∃ b, A.fork b ∧ b.chain = chain ∧ b.height = height ∧ b.hash = x

structure Sound (K : Registry) (A : Book) : Prop where
  chain : ∀ c, ∀ b ∈ A.main c, b.chain = c
  known : ∀ c, ∀ b ∈ A.main c, K.known b
  linked : ∀ c, (A.main c).IsChain Block.Under
  fork_known : ∀ b, A.fork b → K.known b
  fork_off : ∀ b, A.fork b → b ∉ A.main b.chain
  chains : ∀ c ∈ A.chains.elements, c.length < Bencode.sizeLimit

end Book

def HeightRecord.written (record : HeightRecord) : Option Bytes :=
  if record.isEmpty then none else some record.encode

def writtenChains (chains : SortedSet Bytes) : Option Bytes :=
  if chains.isEmpty then none else some (recordOfChains chains)

structure Repository.Keeps (r : Repository) (A : Book) : Prop where
  tip : ∀ c, r.value (.tip c) = (A.main c).getLast?.map (·.hash.bytes)
  tail : ∀ c, r.value (.tail c) = (A.main c).head?.map (·.hash.bytes)
  block : ∀ h v, r.value (.block h) = some v ↔ ∃ b, A.Holds b ∧ b.hash = h ∧ b.encode = v
  threads : ∀ c, Threaded r c (A.nodes c) (A.thread c)
  bare : ∀ h, (∀ c, h ∉ A.nodes c) → r.value (.links h) = none
  height : ∀ c n, ∃ record, A.Lists c n record ∧ r.value (.height c n) = record.written
  chains : r.value .chains = writtenChains A.chains

theorem Block.Under.height_lt {a b : Block} (h : a.Under b) :
    a.height.toInt < b.height.toInt := by
  have := Checked.toInt_succ? h.2
  omega

theorem Block.pairwise_height_lt {blocks : List Block}
    (h : blocks.IsChain fun a b => a.height.toInt < b.height.toInt) :
    blocks.Pairwise fun a b => a.height.toInt < b.height.toInt := by
  have hchain : (blocks.map (·.height.toInt)).IsChain (· < ·) := (List.isChain_map _).2 h
  exact List.pairwise_map.1 (List.isChain_iff_pairwise.1 hchain)

theorem Block.height_le_last {blocks : List Block} {last : Block}
    (h : blocks.Pairwise fun a b => a.height.toInt < b.height.toInt)
    (hlast : blocks.getLast? = some last) :
    ∀ b ∈ blocks, b.height.toInt ≤ last.height.toInt := by
  obtain ⟨lo, rfl⟩ := List.getLast?_eq_some_iff.1 hlast
  intro b hb
  rcases List.mem_append.1 hb with hb | hb
  · exact Int.le_of_lt ((List.pairwise_append.1 h).2.2 b hb last (by simp))
  · rw [List.mem_singleton.1 hb]

namespace Book

namespace Sound

variable {K : Registry} {A : Book}

theorem heights_lt (hA : A.Sound K) (c : Bytes) :
    (A.main c).Pairwise fun a b => a.height.toInt < b.height.toInt :=
  Block.pairwise_height_lt ((hA.linked c).imp fun _ _ h => h.height_lt)

theorem eq_of_height (hA : A.Sound K) {c : Bytes} {a b : Block} (ha : a ∈ A.main c)
    (hb : b ∈ A.main c) (h : a.height = b.height) : a = b := by
  have hn : ((A.main c).map (·.height)).Nodup :=
    List.pairwise_map.2 ((hA.heights_lt c).imp fun hlt he => by rw [he] at hlt; omega)
  exact List.inj_on_of_nodup_map hn ha hb h

theorem eq_of_hash (hA : A.Sound K) {c d : Bytes} {a b : Block} (ha : a ∈ A.main c)
    (hb : b ∈ A.main d) (h : a.hash = b.hash) : a = b :=
  K.hash_inj a b (hA.known c a ha) (hA.known d b hb) h

theorem under_of_split (hA : A.Sound K) {c : Bytes} {pre post : List Block} {b : Block}
    (hm : A.main c = pre ++ b::post) : ∀ a ∈ pre.getLast?, a.Under b := by
  have hlinked := hA.linked c
  rw [hm, List.isChain_append] at hlinked
  exact fun a ha => hlinked.2.2 a ha b (by simp)

theorem holds_known (hA : A.Sound K) {b : Block} (hb : A.Holds b) : K.known b :=
  hb.elim (hA.known _ b) (hA.fork_known b)

theorem decode_of_holds (hA : A.Sound K) {b : Block} (hb : A.Holds b) :
    Block.decode b.encode = .ok b := by
  have hk := hA.holds_known hb
  rw [Block.decode_encode (K.sized b hk), K.stored b hk]

theorem holds_of_mem (hA : A.Sound K) {c : Bytes} {b : Block} (hb : b ∈ A.main c) :
    A.Holds b := by
  obtain rfl := hA.chain c b hb
  exact .inl hb

theorem nodup (hA : A.Sound K) (c : Bytes) : (A.main c).Nodup :=
  (hA.heights_lt c).imp fun hlt he => by rw [he] at hlt; omega

theorem nodes_nodup (hA : A.Sound K) (c : Bytes) : (A.nodes c).Nodup :=
  (List.nodup_map_iff_inj_on (hA.nodup c)).2 fun _ ha _ hb h => hA.eq_of_hash ha hb h

theorem mem_nodes (hA : A.Sound K) {c : Bytes} {b : Block} (hb : K.known b) :
    b.hash ∈ A.nodes c ↔ b ∈ A.main c := by
  refine ⟨fun h => ?_, fun h => List.mem_map_of_mem h⟩
  obtain ⟨a, ha, he⟩ := List.mem_map.1 h
  exact K.hash_inj a b (hA.known c a ha) hb he ▸ ha

theorem nodes_disjoint (hA : A.Sound K) {c d : Bytes} {x : Hash} (hc : x ∈ A.nodes c)
    (hd : x ∈ A.nodes d) : c = d := by
  obtain ⟨a, ha, rfl⟩ := List.mem_map.1 hc
  have hb := (hA.mem_nodes (hA.known c a ha)).1 hd
  exact (hA.chain c a ha).symm.trans (hA.chain d a hb)

theorem fork_hash_not_mem (hA : A.Sound K) {f : Block} (hf : A.fork f) (c : Bytes) :
    f.hash ∉ A.nodes c := by
  intro hm
  have hm := (hA.mem_nodes (hA.fork_known f hf)).1 hm
  rw [← hA.chain c f hm] at hm
  exact hA.fork_off f hf hm

theorem hash_ne_of_fork (hA : A.Sound K) {c : Bytes} {a f : Block} (ha : a ∈ A.main c)
    (hf : A.fork f) : a.hash ≠ f.hash := by
  intro he
  apply hA.fork_hash_not_mem hf c
  rw [← he]
  exact List.mem_map_of_mem ha

theorem nodes_ne_zero (hA : A.Sound K) {c : Bytes} {x : Hash} (hx : x ∈ A.nodes c) :
    x ≠ .zero := by
  obtain ⟨b, hb, rfl⟩ := List.mem_map.1 hx
  exact K.hash_ne_zero b (hA.known c b hb)

theorem within (hA : A.Sound K) (c : Bytes) : Thread.Within (A.nodes c) (A.thread c) where
  nodup _ := (hA.nodes_nodup c).sublist (List.filter_sublist.map _)
  mem _ _ hx := (List.filter_sublist.map _).subset hx

end Sound

def mainAt (A : Book) (chain : Bytes) (height : Int64) : Option Block :=
  (A.main chain).find? (·.height = height)

theorem mainAt_eq_some {K : Registry} {A : Book} (hA : A.Sound K) {c : Bytes} {n : Int64}
    {b : Block} : A.mainAt c n = some b ↔ b ∈ A.main c ∧ b.height = n := by
  constructor
  · intro h
    exact ⟨List.mem_of_find?_eq_some h, by simpa using List.find?_some h⟩
  · rintro ⟨hb, rfl⟩
    cases h : A.mainAt c b.height with
    | none => simpa using List.find?_eq_none.1 h b hb
    | some a =>
      have ha : a.height = b.height := by simpa using List.find?_some h
      rw [hA.eq_of_height (List.mem_of_find?_eq_some h) hb ha]

theorem mainAt_ne_fork {K : Registry} {A : Book} (hA : A.Sound K) {f : Block} (hf : A.fork f)
    (c : Bytes) (n : Int64) : (A.mainAt c n).map Block.hash ≠ some f.hash := by
  intro h
  obtain ⟨a, ha, he⟩ := Option.map_eq_some_iff.1 h
  exact hA.hash_ne_of_fork ((mainAt_eq_some hA).1 ha).1 hf he

theorem Lists.main_eq {K : Registry} {A : Book} (hA : A.Sound K) {c : Bytes} {n : Int64}
    {record : HeightRecord} (h : A.Lists c n record) :
    record.main = (A.mainAt c n).map Block.hash := by
  refine Option.ext fun x => ?_
  rw [h.main, Option.map_eq_some_iff]
  simp only [mainAt_eq_some hA, and_assoc]

theorem Lists.congr {A B : Book} {c : Bytes} {n : Int64} {record : HeightRecord}
    (h : A.Lists c n record) (hmain : ∀ b, b.height = n → (b ∈ B.main c ↔ b ∈ A.main c))
    (hfork : ∀ f, f.chain = c → f.height = n → (B.fork f ↔ A.fork f)) : B.Lists c n record where
  main x := by
    rw [h.main]
    refine exists_congr fun b => and_congr_left fun hb => ?_
    exact (hmain b hb.1).symm
  forks x := by
    rw [h.forks]
    refine exists_congr fun f => and_congr_left fun hf => ?_
    exact (hfork f hf.1 hf.2.1).symm

theorem Lists.main_eq_none {A : Book} {c : Bytes} {n : Int64} {record : HeightRecord}
    (h : A.Lists c n record) (hfree : ∀ b ∈ A.main c, b.height ≠ n) : record.main = none := by
  refine Option.eq_none_iff_forall_ne_some.2 fun x hx => ?_
  obtain ⟨b, hb, hn, -⟩ := (h.main x).1 hx
  exact hfree b hb hn

theorem Lists.contains_insert {A B : Book} {b : Block} {record : HeightRecord}
    (h : A.Lists b.chain b.height record) (hfork : ∀ f, B.fork f ↔ A.fork f ∨ f = b) (x : Hash) :
    (record.forks.insert b.hash).contains x = true ↔
      ∃ f, B.fork f ∧ f.chain = b.chain ∧ f.height = b.height ∧ f.hash = x := by
  simp only [SortedSet.contains_insert, Bool.or_eq_true, decide_eq_true_eq, h.forks, hfork]
  constructor
  · rintro (rfl | ⟨f, hf, hx⟩)
    · exact ⟨b, .inr rfl, rfl, rfl, rfl⟩
    · exact ⟨f, .inl hf, hx⟩
  · rintro ⟨f, hf | rfl, hc, hn, rfl⟩
    · exact .inr ⟨f, hf, hc, hn, rfl⟩
    · exact .inl rfl

theorem sound_empty (K : Registry) : empty.Sound K where
  chain _ _ h := nomatch h
  known _ _ h := nomatch h
  linked _ := .nil
  fork_known _ h := h.elim
  fork_off _ h := h.elim
  chains _ h := nomatch h

end Book

namespace Repository

theorem chains_of_written {r : Repository} {chains : SortedSet Bytes}
    (hv : r.value .chains = writtenChains chains)
    (hsize : ∀ c ∈ chains.elements, c.length < Bencode.sizeLimit) : r.chains = .ok chains := by
  rw [Repository.chains]
  by_cases he : chains.isEmpty = true
  · rw [writtenChains, if_pos he] at hv
    have : chains = .empty := SortedSet.eq_of_contains fun k => SortedSet.isEmpty_iff.1 he k
    simp [load_none hv, Except.map, this]
  · rw [writtenChains, if_neg he] at hv
    simp [load_some hv (chainsOfRecord_recordOfChains hsize), Except.map]

theorem findHeight_of_written {r : Repository} {c : Bytes} {n : Int64} {record : HeightRecord}
    (hv : r.value (.height c n) = record.written) :
    ∃ o, r.findHeight c n = .ok o ∧ o.getD .empty = record := by
  rw [HeightRecord.written] at hv
  by_cases he : record.isEmpty = true
  · rw [if_pos he] at hv
    exact ⟨none, load_none hv, (HeightRecord.eq_empty_of_isEmpty he).symm⟩
  · rw [if_neg he] at hv
    exact ⟨some record, load_some hv record.decode_encode, rfl⟩

namespace Keeps

variable {r : Repository} {A : Book} {K : Registry}

theorem tipHash_eq (h : r.Keeps A) (c : Bytes) :
    r.tipHash c = .ok ((A.main c).getLast?.map Block.hash) := by
  refine load_map ?_ hashOfRecord_bytes
  rw [h.tip, Option.map_map]
  rfl

theorem tailHash_eq (h : r.Keeps A) (c : Bytes) :
    r.tailHash c = .ok ((A.main c).head?.map Block.hash) := by
  refine load_map ?_ hashOfRecord_bytes
  rw [h.tail, Option.map_map]
  rfl

theorem findBlock_of_holds (h : r.Keeps A) (hA : A.Sound K) {b : Block} (hb : A.Holds b) :
    r.findBlock b.hash = .ok (some b) := by
  exact load_some ((h.block _ _).2 ⟨b, hb, rfl, rfl⟩) (hA.decode_of_holds hb)

theorem findBlock_none (h : r.Keeps A) {x : Hash} (hx : ∀ b, A.Holds b → b.hash ≠ x) :
    r.findBlock x = .ok none := by
  refine load_none (Option.eq_none_iff_forall_ne_some.2 fun v hv => ?_)
  obtain ⟨b, hb, he, -⟩ := (h.block x v).1 hv
  exact hx b hb he

theorem findBlock_cases (h : r.Keeps A) (hA : A.Sound K) (x : Hash) :
    (∃ b, A.Holds b ∧ b.hash = x ∧ r.findBlock x = .ok (some b)) ∨
      ((∀ b, A.Holds b → b.hash ≠ x) ∧ r.findBlock x = .ok none) := by
  by_cases hx : ∃ b, A.Holds b ∧ b.hash = x
  · obtain ⟨b, hb, rfl⟩ := hx
    exact .inl ⟨b, hb, rfl, h.findBlock_of_holds hA hb⟩
  · have hx' : ∀ b, A.Holds b → b.hash ≠ x := fun b hb he => hx ⟨b, hb, he⟩
    exact .inr ⟨hx', h.findBlock_none hx'⟩

theorem findBlock_eq_some (h : r.Keeps A) (hA : A.Sound K) {x : Hash} {b : Block} :
    r.findBlock x = .ok (some b) ↔ A.Holds b ∧ b.hash = x := by
  constructor
  · intro hq
    rcases h.findBlock_cases hA x with ⟨a, ha, rfl, hfound⟩ | ⟨-, hnone⟩
    · rw [hfound] at hq
      cases hq
      exact ⟨ha, rfl⟩
    · rw [hnone] at hq
      cases hq
  · rintro ⟨hb, rfl⟩
    exact h.findBlock_of_holds hA hb

theorem namedBlock_of_holds (h : r.Keeps A) (hA : A.Sound K) {b : Block} (hb : A.Holds b) :
    r.namedBlock b.hash = .ok b := by
  simp [namedBlock, h.findBlock_of_holds hA hb, bind, Except.bind, pure, Except.pure]

theorem known_of_namedBlock (h : r.Keeps A) (hA : A.Sound K) {x : Hash} {b : Block}
    (hb : r.namedBlock x = .ok b) : K.known b.stored := by
  rcases h.findBlock_cases hA x with ⟨a, ha, rfl, -⟩ | ⟨-, hq⟩
  · rw [h.namedBlock_of_holds hA ha, Except.ok.injEq] at hb
    subst hb
    have hknown := hA.holds_known ha
    rwa [K.stored a hknown]
  · simp only [namedBlock, hq] at hb
    cases hb

theorem tip_eq (h : r.Keeps A) (hA : A.Sound K) (c : Bytes) :
    r.tip c = .ok (A.main c).getLast? := by
  rw [Repository.tip, h.tipHash_eq]
  cases hb : (A.main c).getLast? with
  | none => rfl
  | some b =>
    have := h.namedBlock_of_holds hA (hA.holds_of_mem (List.mem_of_getLast? hb))
    simp [this, bind, Except.bind, pure, Except.pure]

theorem tail_eq (h : r.Keeps A) (hA : A.Sound K) (c : Bytes) :
    r.tail c = .ok (A.main c).head? := by
  rw [Repository.tail, h.tailHash_eq]
  cases hb : (A.main c).head? with
  | none => rfl
  | some b =>
    have := h.namedBlock_of_holds hA (hA.holds_of_mem (List.mem_of_mem_head? hb))
    simp [this, bind, Except.bind, pure, Except.pure]

theorem findHeight_eq (h : r.Keeps A) (c : Bytes) (n : Int64) :
    ∃ o, r.findHeight c n = .ok o ∧ A.Lists c n (o.getD .empty) := by
  obtain ⟨record, hl, hv⟩ := h.height c n
  obtain ⟨o, hq, rfl⟩ := findHeight_of_written hv
  exact ⟨o, hq, hl⟩

theorem fork_listed (h : r.Keeps A) {f : Block} (hf : A.fork f) :
    ∃ record, r.findHeight f.chain f.height = .ok (some record) ∧
      A.Lists f.chain f.height record ∧ record.forks.contains f.hash = true := by
  obtain ⟨o, hq, hl⟩ := h.findHeight_eq f.chain f.height
  have hfork := (hl.forks f.hash).2 ⟨f, hf, rfl, rfl, rfl⟩
  cases o with
  | none => cases hfork
  | some record => exact ⟨record, hq, hl, hfork⟩

theorem mainHashAt_eq (h : r.Keeps A) (hA : A.Sound K) (c : Bytes) (n : Int64) :
    r.mainHashAt c n = .ok ((A.mainAt c n).map Block.hash) := by
  obtain ⟨o, hq, hl⟩ := h.findHeight_eq c n
  rw [mainHashAt, hq, ← hl.main_eq hA]
  cases o <;> rfl

theorem mainHashAt_eq_some_iff (h : r.Keeps A) (hA : A.Sound K) {c : Bytes} {n : Int64}
    {x : Hash} :
    r.mainHashAt c n = .ok (some x) ↔ ∃ b ∈ A.main c, b.height = n ∧ b.hash = x := by
  rw [h.mainHashAt_eq hA, Except.ok.injEq, Option.map_eq_some_iff]
  simp only [Book.mainAt_eq_some hA, and_assoc]

theorem mainBlockAt_eq (h : r.Keeps A) (hA : A.Sound K) (c : Bytes) (n : Int64) :
    r.mainBlockAt c n = .ok (A.mainAt c n) := by
  rw [mainBlockAt, h.mainHashAt_eq hA]
  cases hb : A.mainAt c n with
  | none => rfl
  | some b =>
    have hmem := ((Book.mainAt_eq_some hA).1 hb).1
    exact h.findBlock_of_holds hA (hA.holds_of_mem hmem)

theorem findLinks_none (h : r.Keeps A) {x : Hash} (hx : ∀ c, x ∉ A.nodes c) :
    r.findLinks x = .ok none :=
  load_none (h.bare x hx)

theorem findLinks_some (h : r.Keeps A) {c : Bytes} {x : Hash} (hx : x ∈ A.nodes c) :
    ∃ l : Links, r.findLinks x = .ok (some l) ∧ l.Follows x (A.thread c) := by
  obtain ⟨l, hl, hf⟩ := (h.threads c).links x hx
  exact ⟨l, load_some hl l.decode_encode, hf⟩

theorem threads_beside {s : Repository} {A' : Book} (h : r.Keeps A) (hA : A.Sound K) {c d : Bytes}
    (hc : c ≠ d) (hm : A'.main c = A.main c)
    (hs : ∀ k, k.OnThreads c (A.nodes c) → ¬ k.OnThreads d (A.nodes d) → s.value k = r.value k) :
    Threaded s c (A'.nodes c) (A'.thread c) := by
  rw [Book.nodes_congr hm, Book.thread_congr hm]
  refine (h.threads c).congr fun k hk => hs k hk fun hk' => hc ?_
  cases k with
  | span => exact Eq.trans (Eq.symm hk) hk'
  | links x => exact hA.nodes_disjoint hk hk'
  | _ => exact hk.elim

theorem congr {s : Repository} (h : r.Keeps A) (hs : ∀ k, s.value k = r.value k) :
    s.Keeps A where
  tip c := (hs _).trans (h.tip c)
  tail c := (hs _).trans (h.tail c)
  block x v := by rw [hs, h.block]
  threads c := (h.threads c).congr fun k _ => hs k
  bare x hx := (hs _).trans (h.bare x hx)
  height c n := by
    obtain ⟨record, hl, hv⟩ := h.height c n
    exact ⟨record, hl, (hs _).trans hv⟩
  chains := (hs _).trans h.chains

end Keeps

theorem value_empty (k : Key) : Repository.empty.value k = none := by
  simp [value, layers, lookup, Repository.empty, Batch.empty, Store.empty]

theorem keeps_empty : Repository.empty.Keeps Book.empty where
  tip _ := value_empty _
  tail _ := value_empty _
  block h v := by
    rw [value_empty]
    constructor
    · exact fun h => nomatch h
    · rintro ⟨b, hb | hb, -⟩
      · cases hb
      · exact hb.elim
  threads c :=
    { span := fun _ => value_empty _
      links := fun _ h => nomatch h }
  bare _ _ := value_empty _
  height c n := by
    refine ⟨.empty, ⟨fun x => ?_, fun x => ?_⟩, value_empty _⟩
    · simp [HeightRecord.empty, Book.empty]
    · simp [HeightRecord.empty, Book.empty]
  chains := value_empty _

end Repository

end ChainState
