import ChainState.Proofs.Book

/-!
# Blocks that join the best chain

A block that is connected above the tip, or below the tail, is added to its
best chain in the book. A block that does not fit is refused, and nothing
changes.
-/

set_option autoImplicit false

namespace ChainState

theorem isChain_concat {α : Type} {R : α → α → Prop} {l : List α} {a : α} (h : l.IsChain R)
    (ha : ∀ t ∈ l.getLast?, R t a) : (l ++ [a]).IsChain R := by
  refine h.append (.singleton a) fun t ht x hx => ?_
  obtain rfl : a = x := by simpa using hx
  exact ha t ht

theorem Block.nodup_foldl (pks : List PublicKey) {keys : List PublicKey} (h : keys.Nodup) :
    (pks.foldl (fun keys pk => if pk ∈ keys then keys else keys ++ [pk]) keys).Nodup := by
  induction pks generalizing keys with
  | nil => exact h
  | cons pk pks ih =>
    refine ih ?_
    dsimp only
    split
    · exact h
    · next hpk => exact List.nodup_append.2 ⟨h, by simp, fun a ha b hb e => hpk (by simp_all)⟩

variable [Crypto]

theorem Repository.Keeps.block_put {r : Repository} {K : Registry} {A A' : Book}
    {b : Block} (hr : r.Keeps A) (hA : A.Sound K) (hb : K.known b)
    (hholds : ∀ x, A'.Holds x ↔ x = b ∨ A.Holds x) (x : Hash) (v : Bytes) :
    (if b.hash = x then some b.encode else r.value (.block x)) = some v ↔
      ∃ a, A'.Holds a ∧ a.hash = x ∧ a.encode = v := by
  simp only [hholds]
  by_cases hx : b.hash = x
  · subst hx
    rw [if_pos rfl, Option.some.injEq]
    constructor
    · rintro rfl
      exact ⟨b, .inl rfl, rfl, rfl⟩
    · rintro ⟨a, rfl | ha, he, rfl⟩
      · rfl
      · rw [K.hash_inj a b (hA.holds_known ha) hb he]
  · rw [if_neg hx, hr.block]
    apply exists_congr
    intro a
    constructor
    · rintro ⟨ha, h⟩
      exact ⟨.inr ha, h⟩
    · rintro ⟨rfl | ha, he, h⟩
      · exact absurd he hx
      · exact ⟨ha, he, h⟩

theorem Repository.Keeps.block_erase {r s : Repository} {K : Registry} {A A' : Book}
    {gone : Block → Prop} (hr : r.Keeps A) (hA : A.Sound K) (hgone : ∀ b, gone b → A.Holds b)
    (hholds : ∀ x, A'.Holds x ↔ A.Holds x ∧ ¬ gone x)
    (herased : ∀ b, gone b → s.value (.block b.hash) = none)
    (hkept : ∀ x, (∀ b, gone b → b.hash ≠ x) → s.value (.block x) = r.value (.block x))
    (x : Hash) (v : Bytes) :
    s.value (.block x) = some v ↔ ∃ a, A'.Holds a ∧ a.hash = x ∧ a.encode = v := by
  simp only [hholds]
  by_cases hx : ∃ b, gone b ∧ b.hash = x
  · obtain ⟨b, hb, rfl⟩ := hx
    rw [herased b hb]
    simp only [reduceCtorEq, false_iff]
    rintro ⟨a, ⟨ha, hleft⟩, he, -⟩
    obtain rfl := K.hash_inj a b (hA.holds_known ha) (hA.holds_known (hgone b hb)) he
    exact hleft hb
  · rw [hkept x fun b hb he => hx ⟨b, hb, he⟩, hr.block]
    refine exists_congr fun a => and_congr_left fun ha => ?_
    exact (and_iff_left fun hg => hx ⟨a, hg, ha.1⟩).symm

namespace Book

structure Gains (A A' : Book) (b : Block) : Prop where
  main : ∀ x, x ∈ A'.main b.chain ↔ x = b ∨ x ∈ A.main b.chain
  others : ∀ c, c ≠ b.chain → A'.main c = A.main c
  fork : ∀ f, A'.fork f ↔ A.fork f ∧ f ≠ b

def Adds (A B : Book) (b : Block) : Prop :=
  ∀ c x, x ∈ B.main c ↔ (c = b.chain ∧ x = b) ∨ x ∈ A.main c

def pushTip (A : Book) (b : Block) : Book where
  main := Function.update A.main b.chain (A.main b.chain ++ [b])
  fork f := A.fork f ∧ f ≠ b
  chains := A.chains.insert b.chain

def pushTail (A : Book) (b : Block) : Book where
  main := Function.update A.main b.chain (b::A.main b.chain)
  fork f := A.fork f ∧ f ≠ b
  chains := A.chains

@[simp] theorem main_pushTip (A : Book) (b : Block) (c : Bytes) :
    (A.pushTip b).main c = if c = b.chain then A.main b.chain ++ [b] else A.main c :=
  Function.update_apply ..

@[simp] theorem main_pushTail (A : Book) (b : Block) (c : Bytes) :
    (A.pushTail b).main c = if c = b.chain then b::A.main b.chain else A.main c :=
  Function.update_apply ..

theorem gains_pushTip (A : Book) (b : Block) : A.Gains (A.pushTip b) b where
  main x := by simp [or_comm]
  others c hc := by simp [hc]
  fork _ := Iff.rfl

theorem gains_pushTail (A : Book) (b : Block) : A.Gains (A.pushTail b) b where
  main x := by simp
  others c hc := by simp [hc]
  fork _ := Iff.rfl

namespace Gains

variable {A A' : Book} {b : Block}

theorem adds (g : A.Gains A' b) : A.Adds A' b := by
  intro c x
  by_cases hc : c = b.chain
  · subst hc
    simp [g.main]
  · simp [g.others c hc, hc]

theorem holds (g : A.Gains A' b) (x : Block) : A'.Holds x ↔ x = b ∨ A.Holds x := by
  by_cases hx : x = b
  · subst hx
    simp [Holds, g.main]
  · by_cases hc : x.chain = b.chain
    · simp [Holds, hc, g.main, g.fork, hx]
    · simp [Holds, g.others _ hc, g.fork, hx]

end Gains

def TakesTip (A : Book) (b : Block) : Prop :=
  ∀ t ∈ (A.main b.chain).getLast?, t.Under b

def TakesTail (A : Book) (b : Block) : Prop :=
  ∃ t ∈ (A.main b.chain).head?, b.Under t

instance (A : Book) (b : Block) : Decidable (A.TakesTip b) :=
  inferInstanceAs (Decidable (∀ t ∈ (A.main b.chain).getLast?, t.Under b))

instance (A : Book) (b : Block) : Decidable (A.TakesTail b) :=
  inferInstanceAs (Decidable (∃ t ∈ (A.main b.chain).head?, b.Under t))

@[simp] theorem takesTip_stored {A : Book} {b : Block} : A.TakesTip b.stored ↔ A.TakesTip b := by
  simp [TakesTip, Block.Under]

@[simp] theorem takesTail_stored {A : Book} {b : Block} :
    A.TakesTail b.stored ↔ A.TakesTail b := by
  simp [TakesTail, Block.Under]

theorem TakesTip.height_lt {K : Registry} {A : Book} {b : Block} (h : A.TakesTip b)
    (hA : A.Sound K) : ∀ x ∈ A.main b.chain, x.height.toInt < b.height.toInt := by
  intro x hx
  have hlast := List.getLast?_eq_some_getLast (List.ne_nil_of_mem hx)
  have hlt := (h _ hlast).height_lt
  have hle := Block.height_le_last (hA.heights_lt b.chain) hlast x hx
  omega

theorem TakesTail.lt_height {K : Registry} {A : Book} {b : Block} (h : A.TakesTail b)
    (hA : A.Sound K) : ∀ x ∈ A.main b.chain, b.height.toInt < x.height.toInt := by
  intro x hx
  obtain ⟨t, ht, hu⟩ := h
  obtain ⟨hi, hhead⟩ := List.head?_eq_some_iff.1 ht
  have hlt := hu.height_lt
  have hp := hA.heights_lt b.chain
  rw [hhead] at hx hp
  rcases List.mem_cons.1 hx with rfl | hx
  · exact hlt
  · have := (List.pairwise_cons.1 hp).1 x hx
    omega

theorem TakesTip.free {K : Registry} {A : Book} {b : Block} (h : A.TakesTip b) (hA : A.Sound K) :
    ∀ x ∈ A.main b.chain, x.height ≠ b.height := by
  intro x hx e
  have := h.height_lt hA x hx
  rw [e] at this
  omega

theorem TakesTail.free {K : Registry} {A : Book} {b : Block} (h : A.TakesTail b)
    (hA : A.Sound K) : ∀ x ∈ A.main b.chain, x.height ≠ b.height := by
  intro x hx e
  have := h.lt_height hA x hx
  rw [e] at this
  omega

structure Joined (r s : Repository) (A A' : Book) (b : Block) : Prop where
  threads : Threaded s b.chain (A'.nodes b.chain) (A'.thread b.chain)
  listed : ∃ record, A.Lists b.chain b.height record ∧
    s.value (.height b.chain b.height) = some (record.promote b.hash).encode
  stored : s.value (.block b.hash) = some b.encode
  frame : ∀ k, ¬ k.OnThreads b.chain (A'.nodes b.chain) → k ≠ .height b.chain b.height →
    k ≠ .block b.hash → s.value k = r.value k

namespace Gains

variable {K : Registry} {A A' : Book} {b : Block}

theorem mem_nodes (g : A.Gains A' b) {x : Hash} :
    x ∈ A'.nodes b.chain ↔ x = b.hash ∨ x ∈ A.nodes b.chain := by
  simp [nodes, g.main, or_and_right, exists_or, eq_comm]

theorem sound (g : A.Gains A' b) (hA : A.Sound K) (hb : K.known b)
    (hlinked : (A'.main b.chain).IsChain Block.Under)
    (hchains : ∀ c ∈ A'.chains.elements, c.length < Bencode.sizeLimit) : A'.Sound K where
  chain c x hx := by
    by_cases hc : c = b.chain
    · subst hc
      rcases (g.main x).1 hx with rfl | hx
      · rfl
      · exact hA.chain _ x hx
    · rw [g.others c hc] at hx
      exact hA.chain c x hx
  known c x hx := by
    by_cases hc : c = b.chain
    · subst hc
      rcases (g.main x).1 hx with rfl | hx
      · exact hb
      · exact hA.known _ x hx
    · rw [g.others c hc] at hx
      exact hA.known c x hx
  linked c := by
    by_cases hc : c = b.chain
    · subst hc
      exact hlinked
    · rw [g.others c hc]
      exact hA.linked c
  fork_known f hf := hA.fork_known f ((g.fork f).1 hf).1
  fork_off f hf hm := by
    obtain ⟨hf, hne⟩ := (g.fork f).1 hf
    by_cases hc : f.chain = b.chain
    · rw [hc, g.main] at hm
      exact hm.elim hne (hc ▸ hA.fork_off f hf)
    · rw [g.others _ hc] at hm
      exact hA.fork_off f hf hm
  chains := hchains

theorem lists_self (g : A.Gains A' b) (hA : A.Sound K) (hb : K.known b)
    (hfree : ∀ x ∈ A.main b.chain, x.height ≠ b.height) {record : HeightRecord}
    (h : A.Lists b.chain b.height record) :
    A'.Lists b.chain b.height (record.promote b.hash) := by
  have hnone : record.main = none := h.main_eq_none hfree
  refine ⟨fun x => ?_, fun x => ?_⟩
  · simp only [HeightRecord.promote, Option.some.injEq, g.main]
    constructor
    · rintro rfl
      exact ⟨b, .inl rfl, rfl, rfl⟩
    · rintro ⟨a, rfl | ha, hn, rfl⟩
      · rfl
      · exact absurd hn (hfree a ha)
  · simp only [HeightRecord.promote, hnone, SortedSet.contains_erase, Bool.and_eq_true,
      decide_eq_true_eq, h.forks, g.fork]
    constructor
    · rintro ⟨hne, f, hf, hc, hn, rfl⟩
      exact ⟨f, ⟨hf, fun e => hne (e ▸ rfl)⟩, hc, hn, rfl⟩
    · rintro ⟨f, ⟨hf, hne⟩, hc, hn, rfl⟩
      exact ⟨fun e => hne (K.hash_inj f b (hA.fork_known f hf) hb e), f, hf, hc, hn, rfl⟩

theorem lists_others (g : A.Gains A' b) {c : Bytes} {n : Int64}
    (hcn : ¬ (b.chain = c ∧ b.height = n)) {record : HeightRecord} (h : A.Lists c n record) :
    A'.Lists c n record := by
  refine h.congr (fun a hn => ?_) fun f hc hn => ?_
  · by_cases hc : c = b.chain
    · subst hc
      exact (g.main a).trans (or_iff_right fun e => hcn (e ▸ ⟨rfl, hn⟩))
    · rw [g.others c hc]
  · exact (g.fork f).trans (and_iff_left fun e => hcn (e ▸ ⟨hc, hn⟩))

variable {r s : Repository}

theorem threads (g : A.Gains A' b) (hA : A.Sound K) (hb : K.known b) (hr : r.Keeps A)
    (hthreads : Threaded s b.chain (A'.nodes b.chain) (A'.thread b.chain))
    (hframe : ∀ k c, k.OnThreads c (A.nodes c) → ¬ k.OnThreads b.chain (A'.nodes b.chain) →
      s.value k = r.value k) (c : Bytes) :
    Threaded s c (A'.nodes c) (A'.thread c) := by
  by_cases hc : c = b.chain
  · subst hc
    exact hthreads
  · refine hr.threads_beside hA hc (g.others c hc) fun k hk hoff => hframe k c hk fun hk' => ?_
    cases k with
    | span => exact hoff hk'
    | links x =>
      rcases g.mem_nodes.1 hk' with rfl | hx
      · exact hc (hA.chain c b ((hA.mem_nodes hb).1 hk)).symm
      · exact hoff hx
    | _ => exact hk'

theorem keeps {t : Repository} (g : A.Gains A' b) (hA : A.Sound K) (hb : K.known b)
    (hr : r.Keeps A) (hfree : ∀ x ∈ A.main b.chain, x.height ≠ b.height)
    (hs : Joined r s A A' b)
    (ht : ∀ k, k ≠ .tip b.chain → k ≠ .tail b.chain → k ≠ .chains → t.value k = s.value k)
    (htip : t.value (.tip b.chain) = (A'.main b.chain).getLast?.map (·.hash.bytes))
    (htail : t.value (.tail b.chain) = (A'.main b.chain).head?.map (·.hash.bytes))
    (hchains : t.value .chains = writtenChains A'.chains) : t.Keeps A' where
  tip c := by
    by_cases hc : c = b.chain
    · exact hc ▸ htip
    · rw [ht _ (by simpa using hc) (by simp) (by simp), hs.frame _ id (by simp) (by simp), hr.tip,
        g.others c hc]
  tail c := by
    by_cases hc : c = b.chain
    · exact hc ▸ htail
    · rw [ht _ (by simp) (by simpa using hc) (by simp), hs.frame _ id (by simp) (by simp), hr.tail,
        g.others c hc]
  block x v := by
    have hv : t.value (.block x) = if b.hash = x then some b.encode else r.value (.block x) := by
      rw [ht _ (by simp) (by simp) (by simp)]
      split
      · next hx => rw [← hx, hs.stored]
      · next hx => exact hs.frame _ id (by simp) (by simpa using Ne.symm hx)
    rw [hv]
    exact hr.block_put hA hb g.holds x v
  threads := by
    have hset : ∀ k c nodes, k.OnThreads c nodes → t.value k = s.value k := fun k c nodes hk => by
      cases k with
      | span | links => exact ht _ (by simp) (by simp) (by simp)
      | _ => exact hk.elim
    refine g.threads hA hb hr (hs.threads.congr fun k hk => hset k _ _ hk) fun k c hk hoff => ?_
    refine (hset k _ _ hk).trans (hs.frame k hoff ?_ ?_)
    · rintro rfl
      exact hk
    · rintro rfl
      exact hk
  bare x hx := by
    have hoff : ¬ (Key.links x).OnThreads b.chain (A'.nodes b.chain) := hx b.chain
    rw [ht _ (by simp) (by simp) (by simp), hs.frame _ hoff (by simp) (by simp)]
    apply hr.bare
    intro c hc
    by_cases he : c = b.chain
    · subst he
      exact hx _ (g.mem_nodes.2 (.inr hc))
    · exact hx c (nodes_congr (g.others c he) ▸ hc)
  height c n := by
    rw [ht _ (by simp) (by simp) (by simp)]
    by_cases hcn : b.chain = c ∧ b.height = n
    · obtain ⟨rfl, rfl⟩ := hcn
      obtain ⟨record, hl, hv⟩ := hs.listed
      exact ⟨_, g.lists_self hA hb hfree hl, hv⟩
    · obtain ⟨record, hl, hv⟩ := hr.height c n
      refine ⟨record, g.lists_others hcn hl, ?_⟩
      rw [hs.frame _ id ?_ (by simp), hv]
      rintro ⟨⟩
      exact hcn ⟨rfl, rfl⟩
  chains := hchains

end Gains

variable {K : Registry} {A : Book} {b : Block}

theorem sound_pushTip (hA : A.Sound K) (hb : K.known b) (h : A.TakesTip b) :
    (A.pushTip b).Sound K := by
  refine (A.gains_pushTip b).sound hA hb ?_ fun c hc => ?_
  · rw [main_pushTip, if_pos rfl]
    exact isChain_concat (hA.linked _) h
  · simp only [pushTip, SortedSet.mem_elements, SortedSet.contains_insert, Bool.or_eq_true,
      decide_eq_true_eq] at hc
    rcases hc with rfl | hc
    · exact (K.sized b hb).chain
    · exact hA.chains c (by simpa using hc)

theorem sound_pushTail (hA : A.Sound K) (hb : K.known b) (h : A.TakesTail b) :
    (A.pushTail b).Sound K := by
  refine (A.gains_pushTail b).sound hA hb ?_ hA.chains
  obtain ⟨t, ht, hu⟩ := h
  rw [main_pushTail, if_pos rfl]
  refine (hA.linked _).cons fun x hx => ?_
  obtain rfl : x = t := by simpa using hx.symm.trans ht
  exact hu

theorem thread_pushTip (A : Book) (b : Block) : (A.pushTip b.stored).thread b.chain =
    Thread.mix b.affected (A.thread b.chain) (A.thread b.chain · ++ [b.hash]) := by
  ext1 pk
  by_cases hpk : pk ∈ b.affected <;> simp [thread, naming, Thread.mix, hpk]

theorem thread_pushTail (A : Book) (b : Block) : (A.pushTail b.stored).thread b.chain =
    Thread.mix b.affected (A.thread b.chain) (b.hash::A.thread b.chain ·) := by
  ext1 pk
  by_cases hpk : pk ∈ b.affected <;> simp [thread, naming, Thread.mix, hpk]

end Book

theorem Block.affected_nodup (b : Block) : b.affected.Nodup := by
  unfold affected
  split
  · exact nodup_foldl _ (by simp)
  · simp

namespace Transition

variable {r : Repository}

theorem ends_heightRecord {c : Bytes} {n : Int64} {record : HeightRecord}
    {post : HeightRecord → Repository → Prop} (hv : r.value (.height c n) = record.written) :
    Ends (heightRecord c n) r post ↔ post record r := by
  obtain ⟨o, hq, rfl⟩ := Repository.findHeight_of_written hv
  rw [heightRecord, ends_query_bind hq, ends_pure]

theorem ends_promote {b : Block} {hash : Hash} {record : HeightRecord}
    {post : Unit → Repository → Prop}
    (hv : r.value (.height b.chain b.height) = record.written) :
    Ends (promote b hash) r post ↔
      post () (r.put (.height b.chain b.height) (record.promote hash).encode) := by
  rw [promote, ends_bind, ends_heightRecord hv, saveHeight, ends_put]

theorem ends_addChain {c : Bytes} {chains : SortedSet Bytes}
    (hv : r.value .chains = writtenChains chains)
    (hsize : ∀ c ∈ chains.elements, c.length < Bencode.sizeLimit) :
    Ends (addChain c) r fun _ s => ∀ k, s.value k =
      if .chains = k then writtenChains (chains.insert c) else r.value k := by
  have hins : writtenChains (chains.insert c) = some (recordOfChains (chains.insert c)) := by
    rw [writtenChains, if_neg]
    intro he
    simpa using SortedSet.isEmpty_iff.1 he c
  rw [addChain, ends_query_bind (Repository.chains_of_written hv hsize)]
  by_cases hc : chains.contains c = true
  · rw [if_pos hc, ends_pure]
    intro k
    by_cases hk : Key.chains = k
    · subst hk
      rw [if_pos rfl, hv, SortedSet.insert_of_contains hc]
    · rw [if_neg hk]
  · rw [if_neg hc, saveChains, ends_put]
    intro k
    rw [Repository.value_put, hins]

theorem ends_setTail_of_none {c : Bytes} {hash : Hash} {tail : Option Hash} {t : Transition Unit}
    {post : Unit → Repository → Prop} (hv : r.value (.tail c) = tail.map FixedBytes.bytes)
    (h : ∀ s : Repository, (∀ k, s.value k =
      if .tail c = k then some (tail.getD hash).bytes else r.value k) → Ends t s post) :
    Ends (do if (← query (·.tailHash c)) = none then setTail c hash
             t) r post := by
  rw [ends_query_bind (Repository.load_map hv hashOfRecord_bytes)]
  cases tail with
  | none =>
    rw [if_pos rfl, setTail, ends_bind, ends_put]
    exact h _ fun k => Repository.value_put ..
  | some x =>
    rw [if_neg (by simp)]
    refine h r fun k => ?_
    by_cases hk : Key.tail c = k
    · rw [if_pos hk, ← hk, hv]
      rfl
    · rw [if_neg hk]

end Transition

namespace Transition

variable {K : Registry} {A : Book} {r : Repository} {b : Block}

theorem ends_join {A' : Book} {thread : Links → PublicKey → Transition Links}
    {rest : Transition Unit} {post : Unit → Repository → Prop} (hA : A.Sound K) (hr : r.Keeps A)
    (hb : K.known b.stored) (g : A.Gains A' b.stored)
    (hfree : ∀ x ∈ A.main b.stored.chain, x.height ≠ b.stored.height)
    (hthread : ∀ s : Repository, Threaded s b.chain (A.nodes b.chain) (A.thread b.chain) →
      b.hash ∉ A.nodes b.chain →
      Ends (b.affected.foldlM thread (.ofBlock b.hash)) s fun links s' =>
        links.Follows b.hash (A'.thread b.chain) ∧
        Rethreaded s s' b.chain (A.nodes b.chain) (A'.thread b.chain))
    (hrest : ∀ s, Book.Joined r s A A' b.stored → Ends rest s post) :
    Ends (do
      put (.block b.hash) b.encode
      let links ← b.affected.foldlM thread (.ofBlock b.hash)
      saveLinks links
      promote b b.hash
      rest) r post := by
  -- at a height where the chain has no block, the hash cannot be on the chain already
  have hh : b.hash ∉ A.nodes b.chain := by
    intro hm
    rw [← Block.hash_stored, ← Block.chain_stored] at hm
    exact hfree _ ((hA.mem_nodes hb).1 hm) rfl
  have hnodes : ∀ x, x ∈ A'.nodes b.chain ↔ x = b.hash ∨ x ∈ A.nodes b.chain := by
    intro x
    have := g.mem_nodes (x := x)
    rwa [Block.chain_stored, Block.hash_stored] at this
  obtain ⟨record, hrecord, hheight⟩ := hr.height b.chain b.height
  have hput : Threaded (r.put (.block b.hash) b.encode) b.chain (A.nodes b.chain)
      (A.thread b.chain) := (hr.threads _).congr fun k hk => by
    cases k <;> simp_all [Key.OnThreads]
  rw [ends_bind, ends_put, ends_bind]
  refine (hthread _ hput hh).mono ?_
  rintro links s ⟨hf, hs, hframe⟩
  have hv : (s.put (.links links.block) links.encode).value (.height b.chain b.height) =
      record.written := by
    simpa using (hframe (.height b.chain b.height) id).trans (by simpa using hheight)
  rw [saveLinks, ends_bind, ends_put, ends_bind, ends_promote hv]
  apply hrest
  have hlinks : links.block = b.hash := hf.block
  refine ⟨?_, ⟨record, by simpa using hrecord, by simp⟩, ?_, fun k hk hn hx => ?_⟩
  · rw [Block.chain_stored]
    refine hs.attach hf (by simp [hlinks]) (fun k hk hm => ?_) fun x hx => (hnodes x).1 hx
    cases k with
    | span | links => simp_all [Ne.symm hk]
    | _ => exact hm.elim
  · have := hframe (.block b.hash) id
    simp [this]
  · rw [Block.chain_stored] at hk hn
    rw [Block.height_stored] at hn
    rw [Block.hash_stored] at hx
    have hoff : ¬ k.OnThreads b.chain (A.nodes b.chain) := by
      intro hk'
      apply hk
      cases k with
      | span => exact hk'
      | links x => exact (hnodes x).2 (.inr hk')
      | _ => exact hk'
    have hne : Key.links b.hash ≠ k := by
      rintro rfl
      exact hk ((hnodes b.hash).2 (.inl rfl))
    simp [hlinks, Ne.symm hn, Ne.symm hx, hne, hframe k hoff]

theorem ends_checkAboveTip {post : Unit → Repository → Prop} (hA : A.Sound K) (hr : r.Keeps A)
    (h : A.TakesTip b) : Ends (checkAboveTip b) r post ↔ post () r := by
  rw [checkAboveTip, ends_query_bind (hr.tip_eq hA b.chain)]
  cases ht : (A.main b.chain).getLast? with
  | none => exact ends_pure
  | some t =>
    obtain ⟨hparent, hheight⟩ := h t ht
    simp only [hparent, hheight, ne_eq, not_true_eq_false, if_false]
    exact ends_pure

theorem refuses_connectTip (hA : A.Sound K) (hr : r.Keeps A) (h : ¬ A.TakesTip b) :
    ∃ fault, Refuses (connectTip b) r (.linkage b.hash fault) := by
  simp only [Book.TakesTip, not_forall] at h
  obtain ⟨t, ht, hu⟩ := h
  suffices ∃ fault, Refuses (checkAboveTip b) r (.linkage b.hash fault) by
    obtain ⟨fault, hrun⟩ := this
    exact ⟨fault, run_bind_error hrun⟩
  rw [Option.mem_def] at ht
  by_cases hparent : b.parent = t.hash
  · have hheight : Checked.succ? t.height ≠ some b.height := fun e => hu ⟨hparent, e⟩
    refine ⟨.heightGap b.height t.height, ?_⟩
    rw [checkAboveTip, Refuses, run_bind_ok (run_query_ok (hr.tip_eq hA b.chain)), ht]
    simp only [hparent, hheight, ne_eq, not_true_eq_false, if_false, not_false_eq_true, if_true]
    rfl
  · refine ⟨.parentNotTip t.hash, ?_⟩
    rw [checkAboveTip, Refuses, run_bind_ok (run_query_ok (hr.tip_eq hA b.chain)), ht]
    simp only [hparent, ne_eq, not_false_eq_true, if_true]
    rfl

theorem ends_connectTip (hA : A.Sound K) (hr : r.Keeps A) (hb : K.known b.stored)
    (h : A.TakesTip b) :
    Ends (connectTip b) r fun _ s => s.Keeps (A.pushTip b.stored) := by
  have g := A.gains_pushTip b.stored
  have hfree := (Book.takesTip_stored.2 h).free hA
  rw [connectTip, ends_bind, ends_checkAboveTip hA hr h]
  refine ends_join hA hr hb g hfree (fun s hs hh => ?_) fun s hs => ?_
  · rw [Book.thread_pushTip]
    exact ends_foldlM_threadAbove hs (hA.within _) hh b.affected_nodup
  rw [setTip, ends_bind, ends_put]
  have htail : s.value (.tail b.chain) =
      ((A.main b.chain).head?.map Block.hash).map FixedBytes.bytes := by
    rw [hs.frame _ id (by simp) (by simp), hr.tail, Option.map_map]
    rfl
  refine ends_setTail_of_none
    (show _ = ((A.main b.chain).head?.map Block.hash).map FixedBytes.bytes by simpa using htail)
    fun s' hs' => ?_
  have hchains : s'.value .chains = writtenChains A.chains := by
    rw [hs' .chains, if_neg (by simp), Repository.value_put, if_neg (by simp),
      hs.frame _ id (by simp) (by simp), hr.chains]
  rw [ends_bind]
  refine (ends_addChain hchains hA.chains).mono fun _ t ht => ?_
  rw [note, ends_modify]
  refine g.keeps hA hb hr hfree hs (fun k h₁ h₂ h₃ => ?_) ?_ ?_ ?_
  · rw [Block.chain_stored] at h₁ h₂
    simp [ht, hs', Ne.symm h₁, Ne.symm h₂, Ne.symm h₃]
  · simp [ht, hs']
  · cases hm : A.main b.chain <;> simp [ht, hs', hm]
  · simp [ht, Book.pushTip]

theorem ends_checkBelowTail {post : Unit → Repository → Prop} (hA : A.Sound K) (hr : r.Keeps A)
    (h : A.TakesTail b) : Ends (checkBelowTail b b.hash) r post ↔ post () r := by
  obtain ⟨t, ht, hparent, hheight⟩ := h
  rw [Option.mem_def] at ht
  rw [checkBelowTail, ends_query_bind (hr.tail_eq hA b.chain), ht]
  simp only [hparent, hheight, ne_eq, not_true_eq_false, or_self, if_false]
  exact ends_pure

theorem refuses_connectTail (hA : A.Sound K) (hr : r.Keeps A) (h : ¬ A.TakesTail b) :
    ∃ fault, Refuses (connectTail b) r (.linkage b.hash fault) := by
  suffices ∃ fault, Refuses (checkBelowTail b b.hash) r (.linkage b.hash fault) by
    obtain ⟨fault, hrun⟩ := this
    exact ⟨fault, run_bind_error hrun⟩
  cases ht : (A.main b.chain).head? with
  | none =>
    refine ⟨.noTail, ?_⟩
    rw [checkBelowTail, Refuses, run_bind_ok (run_query_ok (hr.tail_eq hA b.chain)), ht]
    rfl
  | some t =>
    have hu : t.parent ≠ b.hash ∨ Checked.succ? b.height ≠ some t.height := by
      rw [← not_and_or]
      exact fun hu => h ⟨t, ht, hu⟩
    refine ⟨.notParentOfTail t.hash, ?_⟩
    rw [checkBelowTail, Refuses, run_bind_ok (run_query_ok (hr.tail_eq hA b.chain)), ht]
    simp only [hu, if_true]
    rfl

theorem ends_connectTail (hA : A.Sound K) (hr : r.Keeps A) (hb : K.known b.stored)
    (h : A.TakesTail b) :
    Ends (connectTail b) r fun _ s => s.Keeps (A.pushTail b.stored) := by
  have g := A.gains_pushTail b.stored
  have hfree := (Book.takesTail_stored.2 h).free hA
  rw [connectTail, ends_bind, ends_checkBelowTail hA hr h]
  refine ends_join hA hr hb g hfree (fun s hs hh => ?_) fun s hs => ?_
  · rw [Book.thread_pushTail]
    exact ends_foldlM_threadBelow hs (hA.within _) hh b.affected_nodup
  rw [setTail, ends_bind, ends_put, note, ends_modify]
  refine g.keeps hA hb hr hfree hs (fun k _ h₂ _ => ?_) ?_ ?_ ?_
  · rw [Block.chain_stored] at h₂
    simp [Ne.symm h₂]
  · obtain ⟨t, ht, -⟩ := h
    obtain ⟨hi, hm⟩ := List.head?_eq_some_iff.1 ht
    have := hs.frame (.tip b.chain) id (by simp) (by simp)
    simp [this, hr.tip, hm, List.getLast?_cons]
  · simp
  · have := hs.frame .chains id (by simp) (by simp)
    simp [this, hr.chains, Book.pushTail]

end Transition

end ChainState
