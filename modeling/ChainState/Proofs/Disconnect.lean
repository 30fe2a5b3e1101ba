import ChainState.Proofs.Forks

/-!
# Blocks that leave the best chain

The tip is rolled back and stays stored as a fork. The tail expires, together
with the forks at its height and all that descends from them.
-/

set_option autoImplicit false

namespace ChainState

def Key.OffChain (chain : Bytes) : Key → Prop
  | .tip c | .tail c | .span c _ => c ≠ chain
  | _ => False

variable [Crypto]

namespace Book

def popTip (A : Book) (b : Block) : Book where
  main := Function.update A.main b.chain (A.main b.chain).dropLast
  fork f := A.fork f ∨ f = b
  chains := A.chains

def popTail (A : Book) (b : Block) : Book where
  main := Function.update A.main b.chain (A.main b.chain).tail
  fork f := A.fork f ∧ ¬ (f.chain = b.chain ∧ f.height = b.height)
  chains := A.chains

structure Loses (A A' : Book) (b : Block) : Prop where
  mem : b ∈ A.main b.chain
  main : ∀ x, x ∈ A'.main b.chain ↔ x ∈ A.main b.chain ∧ x ≠ b
  others : ∀ c, c ≠ b.chain → A'.main c = A.main c

@[simp] theorem main_popTip (A : Book) (b : Block) (c : Bytes) :
    (A.popTip b).main c = if c = b.chain then (A.main b.chain).dropLast else A.main c :=
  Function.update_apply ..

@[simp] theorem main_popTail (A : Book) (b : Block) (c : Bytes) :
    (A.popTail b).main c = if c = b.chain then (A.main b.chain).tail else A.main c :=
  Function.update_apply ..

variable {A A' : Book} {b : Block}

theorem adds_popTip (h : (A.main b.chain).getLast? = some b) : (A.popTip b).Adds A b := by
  obtain ⟨pre, hm⟩ := List.getLast?_eq_some_iff.1 h
  intro c x
  by_cases hc : c = b.chain
  · subst hc
    simp [hm, or_comm]
  · simp [hc]

theorem adds_popTail (h : (A.main b.chain).head? = some b) : (A.popTail b).Adds A b := by
  obtain ⟨rest, hm⟩ := List.head?_eq_some_iff.1 h
  intro c x
  by_cases hc : c = b.chain
  · subst hc
    simp [hm]
  · simp [hc]

theorem Adds.loses (h : A'.Adds A b) (hoff : b ∉ A'.main b.chain)
    (hothers : ∀ c, c ≠ b.chain → A'.main c = A.main c) : A.Loses A' b where
  mem := (h b.chain b).2 (.inl ⟨rfl, rfl⟩)
  main x := by
    rw [h]
    constructor
    · exact fun hx => ⟨.inr hx, fun e => hoff (e ▸ hx)⟩
    · rintro ⟨⟨-, hx⟩ | hx, hne⟩
      · exact absurd hx hne
      · exact hx
  others := hothers

theorem Loses.mem_iff (g : A.Loses A' b) {c : Bytes} {n : Int64}
    (hcn : ¬ (b.chain = c ∧ b.height = n)) (a : Block) (hn : a.height = n) :
    a ∈ A'.main c ↔ a ∈ A.main c := by
  by_cases hc : c = b.chain
  · subst hc
    exact (g.main a).trans (and_iff_left fun e => hcn ⟨rfl, e ▸ hn⟩)
  · rw [g.others c hc]

variable {K : Registry}

theorem loses_popTip (hA : A.Sound K) (h : (A.main b.chain).getLast? = some b) :
    A.Loses (A.popTip b) b := by
  refine (adds_popTip h).loses ?_ fun c hc => by simp [hc]
  obtain ⟨pre, hm⟩ := List.getLast?_eq_some_iff.1 h
  have hn := hA.nodup b.chain
  rw [hm] at hn
  rw [main_popTip, if_pos rfl, hm, List.dropLast_concat]
  exact fun hb => (List.nodup_append.1 hn).2.2 b hb b (by simp) rfl

theorem loses_popTail (hA : A.Sound K) (h : (A.main b.chain).head? = some b) :
    A.Loses (A.popTail b) b := by
  refine (adds_popTail h).loses ?_ fun c hc => by simp [hc]
  obtain ⟨rest, hm⟩ := List.head?_eq_some_iff.1 h
  have hn := hA.nodup b.chain
  rw [hm] at hn
  rw [main_popTail, if_pos rfl, hm, List.tail_cons]
  exact (List.nodup_cons.1 hn).1

namespace Loses

variable {r s : Repository}

theorem mem_nodes (g : A.Loses A' b) (hA : A.Sound K) {x : Hash} :
    x ∈ A'.nodes b.chain ↔ x ∈ A.nodes b.chain ∧ x ≠ b.hash := by
  simp only [nodes, List.mem_map, g.main]
  constructor
  · rintro ⟨a, ⟨ha, hne⟩, rfl⟩
    exact ⟨⟨a, ha, rfl⟩, fun e => hne (hA.eq_of_hash ha g.mem e)⟩
  · rintro ⟨⟨a, ha, rfl⟩, hne⟩
    exact ⟨a, ⟨ha, fun e => hne (e ▸ rfl)⟩, rfl⟩

theorem sound (g : A.Loses A' b) (hA : A.Sound K)
    (hlinked : (A'.main b.chain).IsChain Block.Under)
    (hknown : ∀ f, A'.fork f → K.known f) (hoff : ∀ f, A'.fork f → f ∉ A'.main f.chain)
    (hchains : A'.chains = A.chains) : A'.Sound K where
  chain c x hx := by
    by_cases hc : c = b.chain
    · subst hc
      exact hA.chain _ x ((g.main x).1 hx).1
    · exact hA.chain c x (g.others c hc ▸ hx)
  known c x hx := by
    by_cases hc : c = b.chain
    · subst hc
      exact hA.known _ x ((g.main x).1 hx).1
    · exact hA.known c x (g.others c hc ▸ hx)
  linked c := by
    by_cases hc : c = b.chain
    · subst hc
      exact hlinked
    · rw [g.others c hc]
      exact hA.linked c
  fork_known := hknown
  fork_off := hoff
  chains := hchains ▸ hA.chains

theorem threads (g : A.Loses A' b) (hA : A.Sound K) (hr : r.Keeps A)
    (hthreads : Threaded s b.chain (A'.nodes b.chain) (A'.thread b.chain))
    (hspan : ∀ c pk, c ≠ b.chain → s.value (.span c pk) = r.value (.span c pk))
    (hlinks : ∀ x, x ∉ A.nodes b.chain → s.value (.links x) = r.value (.links x)) (c : Bytes) :
    Threaded s c (A'.nodes c) (A'.thread c) := by
  by_cases hc : c = b.chain
  · subst hc
    exact hthreads
  · refine hr.threads_beside hA hc (g.others c hc) fun k hk hoff => ?_
    cases k with
    | span d pk => exact hspan d pk hoff
    | links x => exact hlinks x hoff
    | _ => exact hk.elim

theorem bare (g : A.Loses A' b) (hA : A.Sound K) (hr : r.Keeps A)
    (hself : s.value (.links b.hash) = none)
    (hlinks : ∀ x, x ∉ A.nodes b.chain → s.value (.links x) = r.value (.links x)) {x : Hash}
    (hx : ∀ c, x ∉ A'.nodes c) : s.value (.links x) = none := by
  by_cases hxb : x = b.hash
  · exact hxb ▸ hself
  · have hoff : ∀ c, x ∉ A.nodes c := fun c hc => by
      by_cases he : c = b.chain
      · subst he
        exact hx _ ((g.mem_nodes hA).2 ⟨hc, hxb⟩)
      · exact hx c (nodes_congr (g.others c he) ▸ hc)
    exact (hlinks x (hoff _)).trans (hr.bare x hoff)

theorem keeps (g : A.Loses A' b) (hA : A.Sound K) (hr : r.Keeps A)
    (hthreads : Threaded s b.chain (A'.nodes b.chain) (A'.thread b.chain))
    (htip : s.value (.tip b.chain) = (A'.main b.chain).getLast?.map (·.hash.bytes))
    (htail : s.value (.tail b.chain) = (A'.main b.chain).head?.map (·.hash.bytes))
    (hself : s.value (.links b.hash) = none)
    (hlinks : ∀ x, x ∉ A.nodes b.chain → s.value (.links x) = r.value (.links x))
    (hblock : ∀ x v, s.value (.block x) = some v ↔
      ∃ a, A'.Holds a ∧ a.hash = x ∧ a.encode = v)
    (hheight : ∀ c n, ∃ record, A'.Lists c n record ∧ s.value (.height c n) = record.written)
    (hchains : s.value .chains = writtenChains A'.chains)
    (hframe : ∀ k, k.OffChain b.chain → s.value k = r.value k) : s.Keeps A' where
  tip c := by
    by_cases hc : c = b.chain
    · exact hc ▸ htip
    · rw [hframe (.tip c) hc, hr.tip, g.others c hc]
  tail c := by
    by_cases hc : c = b.chain
    · exact hc ▸ htail
    · rw [hframe (.tail c) hc, hr.tail, g.others c hc]
  block := hblock
  threads := g.threads hA hr hthreads (fun c pk hc => hframe (.span c pk) hc) hlinks
  bare _ hx := g.bare hA hr hself hlinks hx
  height := hheight
  chains := hchains

end Loses

theorem sound_popTip (hA : A.Sound K) (h : (A.main b.chain).getLast? = some b) :
    (A.popTip b).Sound K := by
  have g := loses_popTip hA h
  refine g.sound hA ?_ (fun f hf => ?_) (fun f hf hm => ?_) rfl
  · obtain ⟨pre, hm⟩ := List.getLast?_eq_some_iff.1 h
    have hlinked := hA.linked b.chain
    rw [hm] at hlinked
    rw [main_popTip, if_pos rfl, hm, List.dropLast_concat]
    exact hlinked.left_of_append
  · rcases hf with hf | rfl
    · exact hA.fork_known f hf
    · exact hA.known _ f g.mem
  · by_cases hc : f.chain = b.chain
    · rw [hc, g.main] at hm
      exact hf.elim (fun hf => hA.fork_off f hf (hc ▸ hm.1)) hm.2
    · rw [g.others _ hc] at hm
      rcases hf with hf | rfl
      · exact hA.fork_off f hf hm
      · exact hc rfl

theorem holds_popTip (hA : A.Sound K) (h : (A.main b.chain).getLast? = some b) (x : Block) :
    (A.popTip b).Holds x ↔ A.Holds x := by
  have g := loses_popTip hA h
  by_cases hx : x = b
  · subst hx
    simp [Holds, popTip, g.mem]
  · by_cases hc : x.chain = b.chain
    · rw [Holds, hc, g.main]
      simp [Holds, hc, popTip, hx]
    · rw [Holds, g.others _ hc]
      simp [Holds, popTip, hx]

theorem thread_popTip (h : (A.main b.chain).getLast? = some b)
    (pk : PublicKey) : A.thread b.chain pk = if pk ∈ b.affected
      then (A.popTip b).thread b.chain pk ++ [b.hash] else (A.popTip b).thread b.chain pk := by
  obtain ⟨pre, hm⟩ := List.getLast?_eq_some_iff.1 h
  by_cases hpk : pk ∈ b.affected <;> simp [thread, naming, hm, hpk]

theorem lists_popTip (hA : A.Sound K) (h : (A.main b.chain).getLast? = some b) {c : Bytes}
    {n : Int64} {record : HeightRecord} (hl : A.Lists c n record) :
    (A.popTip b).Lists c n
      (if b.chain = c ∧ b.height = n then record.demote b.hash else record) := by
  have g := loses_popTip hA h
  split
  · next hcn =>
    obtain ⟨rfl, rfl⟩ := hcn
    have hmain : record.main = some b.hash := (hl.main _).2 ⟨b, g.mem, rfl, rfl⟩
    rw [HeightRecord.demote, if_pos hmain]
    refine ⟨fun x => ?_, hl.contains_insert fun f => Iff.rfl⟩
    simp only [reduceCtorEq, false_iff, g.main]
    rintro ⟨a, ⟨ha, hne⟩, hn, -⟩
    exact hne (hA.eq_of_height ha g.mem hn)
  · next hcn =>
    refine hl.congr (g.mem_iff hcn) fun f hc hn => or_iff_left ?_
    rintro rfl
    exact hcn ⟨hc, hn⟩

end Book

namespace Transition

variable {K : Registry} {A : Book} {r : Repository} {b : Block}

theorem hash_eq_tip (hA : A.Sound K) (hb : K.known b.stored) {c : Bytes} {o : Option Block}
    (ho : ∀ x ∈ o, x ∈ A.main c) : o.map Block.hash = some b.hash ↔ o = some b.stored := by
  cases o with
  | none => simp
  | some x =>
    simp only [Option.map_some, Option.some.injEq]
    rw [← Block.hash_stored b]
    exact ⟨fun h => K.hash_inj x _ (hA.known c x (ho x rfl)) hb h, fun h => h ▸ rfl⟩

theorem refuses_rollBack (hA : A.Sound K) (hr : r.Keeps A) (hb : K.known b.stored)
    (h : (A.main b.chain).getLast? ≠ some b.stored) :
    Refuses (rollBack b) r (.linkage b.hash .notTip) := by
  have hne : (A.main b.chain).getLast?.map Block.hash ≠ some b.hash := fun e =>
    h ((hash_eq_tip hA hb fun x hx => List.mem_of_getLast? hx).1 e)
  rw [Refuses, rollBack, run_bind_ok (run_query_ok (hr.tipHash_eq b.chain))]
  simp only [hne, ne_eq, not_false_eq_true, if_true]
  rfl

theorem ends_leave {A' : Book} {unthread : Links → PublicKey → Transition Unit}
    {rest : Transition Unit} {post : Unit → Repository → Prop} (hA : A.Sound K) (hr : r.Keeps A)
    (g : A.Loses A' b.stored)
    (hothers : ∀ pk, pk ∉ b.affected → A.thread b.chain pk = A'.thread b.chain pk)
    (hunthread : ∀ links : Links, links.Follows b.hash (A.thread b.chain) →
      Threaded r b.chain (A'.nodes b.chain) (A.thread b.chain) → b.hash ∉ A'.nodes b.chain →
      Ends (b.affected.forM (unthread links)) r fun _ s =>
        Rethreaded r s b.chain (A'.nodes b.chain)
          (Thread.mix b.affected (A.thread b.chain) (A'.thread b.chain)))
    (hrest : ∀ s, Rethreaded r s b.chain (A'.nodes b.chain) (A'.thread b.chain) →
      Ends rest s post) :
    Ends (do
      let links := (← query (·.findLinks b.hash)).getD (.ofBlock b.hash)
      b.affected.forM (unthread links)
      rest) r post := by
  have hnodes : ∀ x, x ∈ A'.nodes b.chain ↔ x ∈ A.nodes b.chain ∧ x ≠ b.hash := by
    intro x
    have := g.mem_nodes hA (x := x)
    rwa [Block.chain_stored, Block.hash_stored] at this
  have hmem : b.stored.hash ∈ A.nodes b.stored.chain := List.mem_map_of_mem g.mem
  rw [Block.hash_stored, Block.chain_stored] at hmem
  obtain ⟨links, hl, hf⟩ := hr.findLinks_some hmem
  have hT := (hr.threads b.chain).subset fun x hx => ((hnodes x).1 hx).1
  have hh : b.hash ∉ A'.nodes b.chain := fun hm => ((hnodes b.hash).1 hm).2 rfl
  have hmix : Thread.mix b.affected (A.thread b.chain) (A'.thread b.chain) =
      A'.thread b.chain := by
    ext1 pk
    by_cases hpk : pk ∈ b.affected
    · exact if_pos hpk
    · rw [Thread.mix_of_not_mem hpk, hothers pk hpk]
  rw [ends_query_bind hl, Option.getD_some, ends_bind]
  refine (hunthread links hf hT hh).mono ?_
  intro _ s hs
  rw [hmix] at hs
  exact hrest s hs

/-- The book, once the tip has become a fork. -/
theorem keeps_popTip {s : Repository} (hA : A.Sound K) (hr : r.Keeps A)
    (h : (A.main b.chain).getLast? = some b) {record : HeightRecord}
    (hrecord : A.Lists b.chain b.height record)
    (hthreads : Threaded s b.chain ((A.popTip b).nodes b.chain) ((A.popTip b).thread b.chain))
    (htip : s.value (.tip b.chain) =
      ((A.popTip b).main b.chain).getLast?.map (·.hash.bytes))
    (htail : s.value (.tail b.chain) = ((A.popTip b).main b.chain).head?.map (·.hash.bytes))
    (hs : ∀ k, ¬ k.OnThreads b.chain ((A.popTip b).nodes b.chain) → k ≠ .tip b.chain →
      k ≠ .tail b.chain → s.value k =
        if .links b.hash = k then none
        else if .height b.chain b.height = k then some (record.demote b.hash).encode
        else r.value k) :
    s.Keeps (A.popTip b) := by
  have g := Book.loses_popTip hA h
  have hself : ¬ (Key.links b.hash).OnThreads b.chain ((A.popTip b).nodes b.chain) :=
    fun hm => ((g.mem_nodes hA).1 hm).2 rfl
  refine g.keeps hA hr hthreads htip htail ?_ (fun x hx => ?_) (fun x v => ?_) (fun c n => ?_) ?_
    fun k hk => ?_
  · rw [hs _ hself (by simp) (by simp), if_pos rfl]
  · have hoff : ¬ (Key.links x).OnThreads b.chain ((A.popTip b).nodes b.chain) :=
      fun hm => hx ((g.mem_nodes hA).1 hm).1
    have hne : b.hash ≠ x := by
      rintro rfl
      exact hx (List.mem_map_of_mem g.mem)
    simp [hs _ hoff, hne]
  · simp [hs (.block x) id, hr.block, Book.holds_popTip hA h]
  · by_cases hcn : b.chain = c ∧ b.height = n
    · obtain ⟨rfl, rfl⟩ := hcn
      have hl := Book.lists_popTip hA h hrecord
      rw [if_pos ⟨rfl, rfl⟩] at hl
      have hmain : record.main = some b.hash := (hrecord.main _).2 ⟨b, g.mem, rfl, rfl⟩
      exact ⟨_, hl, by simp [hs (.height b.chain b.height) id, HeightRecord.written_demote hmain]⟩
    · obtain ⟨record', hl, hv⟩ := hr.height c n
      have hl := Book.lists_popTip hA h hl
      rw [if_neg hcn] at hl
      exact ⟨record', hl, by simp [hs (.height c n) id, hcn, hv]⟩
  · simp [hs .chains id, hr.chains, Book.popTip]
  · cases k with
    | tip c | tail c => simp_all [Key.OffChain, Key.OnThreads]
    | span c pk => simp_all [Key.OffChain, Key.OnThreads]
    | _ => exact hk.elim

theorem ends_lowerTip {s : Repository} {post : Unit → Repository → Prop} (hA : A.Sound K)
    (hr : r.Keeps A) (h : (A.main b.chain).getLast? = some b.stored)
    (htail : s.value (.tail b.chain) = r.value (.tail b.chain))
    (hpost : ∀ t : Repository, (∀ k, t.value k =
      if .tip b.chain = k then ((A.popTip b.stored).main b.chain).getLast?.map (·.hash.bytes)
      else if .tail b.chain = k then
        ((A.popTip b.stored).main b.chain).head?.map (·.hash.bytes)
      else s.value k) → post () t) :
    Ends (do
      if (← query (·.tailHash b.chain)) = some b.hash then
        delete (.tip b.chain)
        delete (.tail b.chain)
      else setTip b.chain b.parent
      note b) s post := by
  have h' : (A.main b.stored.chain).getLast? = some b.stored := by simpa using h
  have g := Book.loses_popTip hA h'
  have hb := hA.known _ _ g.mem
  have hq : s.tailHash b.chain = .ok ((A.main b.chain).head?.map Block.hash) :=
    (Repository.load_congr htail _).trans (hr.tailHash_eq b.chain)
  rw [ends_query_bind hq]
  obtain ⟨pre, hm⟩ := List.getLast?_eq_some_iff.1 h
  rcases List.eq_nil_or_concat' pre with rfl | ⟨lo, t, rfl⟩
  · have hhead : (A.main b.chain).head?.map Block.hash = some b.hash := by simp [hm]
    rw [if_pos hhead, ends_bind, ends_delete, ends_bind, ends_delete, note, ends_modify]
    refine hpost _ fun k => ?_
    by_cases h₁ : Key.tip b.chain = k <;> by_cases h₂ : Key.tail b.chain = k <;>
      simp [h₁, h₂, hm]
  · have hfirst : (A.main b.chain).head? = (lo ++ [t]).head? := by
      rw [hm]
      cases lo <;> rfl
    have hhead : (A.main b.chain).head?.map Block.hash ≠ some b.hash := fun e => by
      have he := (hash_eq_tip hA hb fun x hx => List.mem_of_mem_head? hx).1 e
      have hin : b.stored ∈ lo ++ [t] := List.mem_of_mem_head? (hfirst ▸ he)
      exact ((g.main b.stored).1 (by simpa [hm] using hin)).2 rfl
    have hparent : b.parent = t.hash := by
      simpa using (hA.under_of_split hm t (by simp)).1
    rw [if_neg hhead, setTip, ends_bind, ends_put, note, ends_modify]
    refine hpost _ fun k => ?_
    by_cases h₁ : Key.tip b.chain = k
    · simp [h₁, hm, hparent]
    · by_cases h₂ : Key.tail b.chain = k
      · subst h₂
        simp [htail, hr.tail, hm]
      · simp [h₁, h₂]

theorem ends_rollBack (hA : A.Sound K) (hr : r.Keeps A)
    (h : (A.main b.chain).getLast? = some b.stored) :
    Ends (rollBack b) r fun _ s => s.Keeps (A.popTip b.stored) := by
  have h' : (A.main b.stored.chain).getLast? = some b.stored := by simpa using h
  have hA' := Book.sound_popTip hA h'
  have g := Book.loses_popTip hA h'
  have hthread := Book.thread_popTip h'
  simp only [Block.chain_stored, Block.affected_stored, Block.hash_stored] at hthread
  rw [rollBack, ends_query_bind (hr.tipHash_eq b.chain), h]
  simp only [Option.map_some, Block.hash_stored, ne_eq, not_true_eq_false, if_false]
  refine ends_leave hA hr g (fun pk hpk => ?_) (fun links hf hT hh => ?_) ?_
  · rw [hthread, if_neg hpk]
  · refine ends_forM_unthreadAbove hT (hA'.within b.chain) hh (fun x hx => hA'.nodes_ne_zero hx)
      b.affected_nodup hf fun pk hpk => ?_
    rw [hthread, if_pos hpk]
  rintro s ⟨hs, hframe⟩
  obtain ⟨record, hrecord, hheight⟩ := hr.height b.chain b.height
  have hv : (s.delete (.links b.hash)).value (.height b.chain b.height) = record.written := by
    simpa [hheight] using hframe (.height b.chain b.height) id
  rw [ends_bind, ends_delete, ends_bind, ends_heightRecord hv, saveHeight, ends_bind, ends_put]
  refine ends_lowerTip hA hr h (by simpa using hframe (.tail b.chain) id) fun t ht => ?_
  have hkeeps := keeps_popTip (s := t) hA hr h' (by simpa using hrecord)
  rw [Block.chain_stored, Block.height_stored, Block.hash_stored] at hkeeps
  refine hkeeps (hs.congr fun k hk => ?_) ?_ ?_ fun k hk h₁ h₂ => ?_
  · have hne : Key.links b.hash ≠ k := by
      rintro rfl
      have hm : b.hash ∈ (A.popTip b.stored).nodes b.chain := hk
      have := (g.mem_nodes hA).1 (by simpa using hm)
      simp at this
    cases k with
    | span | links => simp [ht, hne]
    | _ => exact hk.elim
  · simp [ht]
  · simp [ht]
  · by_cases h₃ : Key.height b.chain b.height = k
    · subst h₃
      simp [ht]
    · simp [ht, Ne.symm h₁, Ne.symm h₂, h₃, hframe k hk]

end Transition

namespace Book

variable {K : Registry} {A : Book} {b : Block}

def rivals (A : Book) (b : Block) (f : Block) : Prop :=
  A.forksOf b.chain f ∧ f.height = b.height

/-- The tail goes, with the forks at its height and all their descendants. -/
def expire (A : Book) (b : Block) : Book :=
  (A.popTail b).dropForks fun x => ∃ f, A.rivals b f ∧ Descends (A.forksOf b.chain) f x

theorem sound_popTail (hA : A.Sound K) (h : (A.main b.chain).head? = some b) :
    (A.popTail b).Sound K := by
  have g := loses_popTail hA h
  refine g.sound hA ?_ (fun f hf => hA.fork_known f hf.1) (fun f hf hm => ?_) rfl
  · rw [main_popTail, if_pos rfl]
    exact (hA.linked b.chain).tail
  · by_cases hc : f.chain = b.chain
    · rw [hc, g.main] at hm
      exact hA.fork_off f hf.1 (hc ▸ hm.1)
    · exact hA.fork_off f hf.1 (g.others _ hc ▸ hm)

theorem holds_popTail (hA : A.Sound K) (h : (A.main b.chain).head? = some b) (x : Block) :
    (A.popTail b).Holds x ↔ A.Holds x ∧ x ≠ b ∧ ¬ A.rivals b x := by
  have g := loses_popTail hA h
  have hne : A.fork x → x ≠ b := fun hf e => hA.fork_off x hf (e ▸ g.mem)
  have hoff : x ∈ A.main x.chain → ¬ A.fork x := fun hm hf => hA.fork_off x hf hm
  by_cases hc : x.chain = b.chain
  · rw [Holds, hc, g.main]
    rw [hc] at hoff
    simp only [Holds, popTail, rivals, forksOf, hc]
    tauto
  · have hxb : x ≠ b := fun e => hc (e ▸ rfl)
    rw [Holds, g.others _ hc]
    simp only [Holds, popTail, rivals, forksOf, hc]
    tauto

theorem thread_popTail (h : (A.main b.chain).head? = some b)
    (pk : PublicKey) : A.thread b.chain pk = if pk ∈ b.affected
      then b.hash::(A.popTail b).thread b.chain pk else (A.popTail b).thread b.chain pk := by
  obtain ⟨rest, hm⟩ := List.head?_eq_some_iff.1 h
  by_cases hpk : pk ∈ b.affected <;> simp [thread, naming, hm, hpk]

theorem lists_popTail_self (hA : A.Sound K) (h : (A.main b.chain).head? = some b) :
    (A.popTail b).Lists b.chain b.height .empty := by
  have g := loses_popTail hA h
  refine ⟨fun x => ?_, fun x => ?_⟩
  · simp only [HeightRecord.empty, reduceCtorEq, false_iff, g.main]
    rintro ⟨a, ⟨ha, hne⟩, hn, -⟩
    exact hne (hA.eq_of_height ha g.mem hn)
  · simp only [HeightRecord.empty, SortedSet.contains_empty, Bool.false_eq_true, false_iff]
    rintro ⟨f, ⟨-, hne⟩, hc, hn, -⟩
    exact hne ⟨hc, hn⟩

theorem lists_popTail_others (hA : A.Sound K) (h : (A.main b.chain).head? = some b) {c : Bytes}
    {n : Int64} (hcn : ¬ (b.chain = c ∧ b.height = n)) {record : HeightRecord}
    (hl : A.Lists c n record) : (A.popTail b).Lists c n record := by
  have g := loses_popTail hA h
  refine hl.congr (g.mem_iff hcn) fun f hc hn => and_iff_left ?_
  rintro ⟨hfc, hfn⟩
  exact hcn ⟨hfc.symm.trans hc, hfn.symm.trans hn⟩

theorem expire_eq (A : Book) (b : Block) {removed : List Hash}
    (hremoved : ∀ x, x ∈ removed ↔ ∃ f, A.rivals b f ∧ f.hash = x) :
    A.expire b = (A.popTail b).dropForks fun x =>
      ∃ above, Checked.succ? b.height = some above ∧
        Orphan ((A.popTail b).forksOf b.chain) above removed x := by
  have hleft : (A.popTail b).forksOf b.chain =
      fun f => A.forksOf b.chain f ∧ ¬ A.rivals b f := by
    ext f
    simp only [forksOf, rivals, popTail]
    tauto
  have hiff := @Descends.iff_orphan _ (A.forksOf b.chain) _ b.height removed
    (fun f hf => hf.2) hremoved
  rw [expire, dropForks, dropForks, hleft]
  congr 1
  funext x
  refine propext (and_congr_right fun hx => not_congr ((hiff (x := x)).trans ?_))
  exact or_iff_right fun hr => hx.2 ⟨hr.1.2, hr.2⟩

end Book

namespace Transition

variable {K : Registry} {A : Book} {r : Repository} {b : Block}

theorem refuses_expire (hA : A.Sound K) (hr : r.Keeps A) (hb : K.known b.stored)
    (h : (A.main b.chain).head? ≠ some b.stored) :
    Refuses (expire b) r (.linkage b.hash .notTail) := by
  have hne : (A.main b.chain).head?.map Block.hash ≠ some b.hash := fun e =>
    h ((hash_eq_tip hA hb fun x hx => List.mem_of_mem_head? hx).1 e)
  rw [Refuses, expire, run_bind_ok (run_query_ok (hr.tailHash_eq b.chain))]
  simp only [hne, ne_eq, not_false_eq_true, if_true]
  rfl

theorem mainHashAbove_eq (hA : A.Sound K) (hr : r.Keeps A)
    (h : (A.main b.chain).head? = some b.stored) :
    mainHashAbove r b.chain b.height = .ok ((A.main b.chain).tail.head?.map Block.hash) := by
  obtain ⟨rest, hm⟩ := List.head?_eq_some_iff.1 h
  have hlinked := hA.linked b.chain
  rw [hm] at hlinked
  cases rest with
  | nil =>
    rw [mainHashAbove, hm]
    cases hs : Checked.succ? b.height with
    | none => rfl
    | some above =>
      have hnone : A.mainAt b.chain above = none := by
        refine Option.eq_none_iff_forall_ne_some.2 fun x hx => ?_
        obtain ⟨hmem, rfl⟩ := (Book.mainAt_eq_some hA).1 hx
        obtain rfl : x = b.stored := by simpa [hm] using hmem
        have := Checked.toInt_succ? hs
        rw [Block.height_stored] at this
        omega
      simp only [hr.mainHashAt_eq hA, hnone]
      rfl
  | cons t rest =>
    have hsucc : Checked.succ? b.height = some t.height := by
      simpa using ((List.isChain_cons_cons.1 hlinked).1).2
    have hsome : A.mainAt b.chain t.height = some t :=
      (Book.mainAt_eq_some hA).2 ⟨by simp [hm], rfl⟩
    simp only [mainHashAbove, hsucc, hr.mainHashAt_eq hA, hsome, hm]
    rfl

theorem keeps_popTail {s : Repository} (hA : A.Sound K) (hr : r.Keeps A)
    (h : (A.main b.chain).head? = some b) {rivals : List Hash}
    (hrivals : ∀ x, x ∈ rivals ↔ ∃ f, A.rivals b f ∧ f.hash = x)
    (hthreads : Threaded s b.chain ((A.popTail b).nodes b.chain) ((A.popTail b).thread b.chain))
    (htip : s.value (.tip b.chain) =
      ((A.popTail b).main b.chain).getLast?.map (·.hash.bytes))
    (htail : s.value (.tail b.chain) = ((A.popTail b).main b.chain).head?.map (·.hash.bytes))
    (hs : ∀ k, ¬ k.OnThreads b.chain ((A.popTail b).nodes b.chain) → k ≠ .tip b.chain →
      k ≠ .tail b.chain → s.value k =
        if k.OfBlocks (b.hash::rivals) then none
        else if .height b.chain b.height = k then none else r.value k) :
    s.Keeps (A.popTail b) := by
  have g := Book.loses_popTail hA h
  have herased : ∀ x, x ∈ b.hash::rivals ↔ ∃ a, (a = b ∨ A.rivals b a) ∧ a.hash = x := by
    intro x
    simp [hrivals, or_and_right, exists_or, eq_comm]
  have hblock (x : Hash) : s.value (.block x) =
      if x ∈ b.hash::rivals then none else r.value (.block x) := by
    simpa [Key.OfBlocks] using hs (.block x) id (by simp) (by simp)
  -- the rivals had no links, so erasing theirs changes nothing
  have hlinks : ∀ x, x ∉ A.nodes b.chain → s.value (.links x) = r.value (.links x) := by
    intro x hx
    have hx' : x ∉ (A.popTail b).nodes b.chain := fun hm => hx ((g.mem_nodes hA).1 hm).1
    rw [hs (.links x) hx' (by simp) (by simp)]
    split
    · next hmem =>
      obtain ⟨f, rfl | hf, rfl⟩ := (herased x).1 hmem
      · exact (hx (List.mem_map_of_mem g.mem)).elim
      · exact (hr.bare _ (hA.fork_hash_not_mem hf.1.1)).symm
    · simp
  refine g.keeps hA hr hthreads htip htail ?_ hlinks ?_ (fun c n => ?_) ?_ fun k hk => ?_
  · have hoff : b.hash ∉ (A.popTail b).nodes b.chain := fun hm => ((g.mem_nodes hA).1 hm).2 rfl
    rw [hs (.links b.hash) hoff (by simp) (by simp), if_pos (by simp [Key.OfBlocks])]
  · have hheld : ∀ a, a = b ∨ A.rivals b a → A.Holds a := by
      rintro a (rfl | ha)
      · exact .inl g.mem
      · exact .inr ha.1.1
    refine hr.block_erase hA hheld (fun x => ?_) (fun a ha => ?_) fun x hx => ?_
    · rw [Book.holds_popTail hA h, not_or]
    · rw [hblock, if_pos ((herased _).2 ⟨a, ha, rfl⟩)]
    · rw [hblock, if_neg]
      intro hmem
      obtain ⟨a, ha, he⟩ := (herased x).1 hmem
      exact hx a ha he
  · by_cases hcn : b.chain = c ∧ b.height = n
    · obtain ⟨rfl, rfl⟩ := hcn
      refine ⟨.empty, Book.lists_popTail_self hA h, ?_⟩
      rw [hs _ id (by simp) (by simp), if_neg (by simp [Key.OfBlocks]), if_pos rfl]
      rfl
    · obtain ⟨record, hl, hv⟩ := hr.height c n
      refine ⟨record, Book.lists_popTail_others hA h hcn hl, ?_⟩
      rw [hs _ id (by simp) (by simp), if_neg (by simp [Key.OfBlocks]),
        if_neg (by simpa using hcn), hv]
  · rw [hs _ id (by simp) (by simp), if_neg (by simp [Key.OfBlocks]), if_neg (by simp), hr.chains]
    rfl
  · cases k with
    | tip c | tail c => simp_all [Key.OffChain, Key.OnThreads, Key.OfBlocks]
    | span c pk => simp_all [Key.OffChain, Key.OnThreads, Key.OfBlocks]
    | _ => exact hk.elim

structure Redrawn (r s : Repository) (chain : Bytes) (A : Book) : Prop where
  threads : Threaded s chain (A.nodes chain) (A.thread chain)
  tip : s.value (.tip chain) = (A.main chain).getLast?.map (·.hash.bytes)
  tail : s.value (.tail chain) = (A.main chain).head?.map (·.hash.bytes)
  frame : ∀ k, ¬ k.OnThreads chain (A.nodes chain) → k ≠ .tip chain → k ≠ .tail chain →
    s.value k = r.value k

theorem keeps_eraseTail {s t : Repository} (hA : A.Sound K) (hr : r.Keeps A)
    (h : (A.main b.chain).head? = some b) {rivals : List Hash}
    (hrivals : ∀ x, x ∈ rivals ↔ ∃ f, A.rivals b f ∧ f.hash = x)
    (hs : Redrawn r s b.chain (A.popTail b))
    (ht : ∀ k, t.value k = if k.OfBlocks rivals then none else s.value k) :
    (((t.delete (.height b.chain b.height)).delete (.block b.hash)).delete (.links b.hash)).Keeps
      (A.popTail b) := by
  have g := Book.loses_popTail hA h
  refine keeps_popTail hA hr h hrivals (hs.threads.congr fun k hk => ?_)
    (by simpa [ht, Key.OfBlocks] using hs.tip) (by simpa [ht, Key.OfBlocks] using hs.tail)
    fun k hk h₁ h₂ => ?_
  · cases k with
    | span c pk => simp [ht, Key.OfBlocks]
    | links x =>
      obtain ⟨hmem, hne⟩ := (g.mem_nodes hA).1 hk
      have hoff : x ∉ rivals := fun hm => by
        obtain ⟨f, hf, rfl⟩ := (hrivals x).1 hm
        exact hA.fork_hash_not_mem hf.1.1 _ hmem
      simp [ht, Key.OfBlocks, hne.symm, hoff]
    | _ => exact hk.elim
  · have hk' := hs.frame k hk h₁ h₂
    cases k with
    | block x | links x =>
      rcases eq_or_ne x b.hash with rfl | hx
      · simp [Key.OfBlocks]
      · simp [ht, Key.OfBlocks, hk', hx, hx.symm]
    | _ => simp [ht, Key.OfBlocks, hk']

theorem ends_expireForks {s : Repository} (hA : A.Sound K) (hr : r.Keeps A)
    (h : (A.main b.stored.chain).head? = some b.stored)
    (hs : Redrawn r s b.chain (A.popTail b.stored)) :
    Ends (do
      let record ← heightRecord b.chain b.height
      record.forks.elements.forM eraseBlock
      delete (.height b.chain b.height)
      match Checked.succ? b.height with
      | some above => discard (pruneOrphans b.chain above record.forks.elements)
      | none => pure ()
      eraseBlock b.hash
      note b) s fun _ t => t.Keeps (A.expire b.stored) := by
  have hA' := Book.sound_popTail hA h
  have g := Book.loses_popTail hA h
  obtain ⟨record, hrecord, hheight⟩ := hr.height b.chain b.height
  have hv : s.value (.height b.chain b.height) = record.written := by
    rw [hs.frame _ id (by simp) (by simp), hheight]
  have hrivals : ∀ x, x ∈ record.forks.elements ↔ ∃ f, A.rivals b.stored f ∧ f.hash = x := by
    intro x
    simp [hrecord.forks, Book.rivals, Book.forksOf, and_assoc]
  rw [ends_bind, ends_heightRecord hv, ends_bind]
  refine (ends_forM_eraseBlock record.forks.elements).mono fun _ t ht => ?_
  rw [ends_bind, ends_delete]
  have ht' := keeps_eraseTail hA hr h hrivals (b.chain_stored.symm ▸ hs) ht
  rw [Block.height_stored, Block.chain_stored, Block.hash_stored] at ht'
  have hexpire := A.expire_eq b.stored hrivals
  rw [Block.height_stored, Block.chain_stored] at hexpire
  rw [hexpire]
  cases habove : Checked.succ? b.height with
  | none =>
    simp only
    rw [ends_bind, ends_eraseBlock, note, ends_modify, Book.dropForks_of_none _ (by simp)]
    exact ht'.congr fun k => Repository.value_note ..
  | some above =>
    have hshelf := ht'.shelf hA' b.chain
    have hoff : ∀ f, (A.popTail b.stored).forksOf b.chain f → f.hash ≠ b.hash := by
      intro f hf
      rw [← Block.hash_stored b]
      exact (hA.hash_ne_of_fork g.mem hf.1.1).symm
    simp only [Option.some.injEq, exists_eq_left']
    rw [ends_bind, ends_discard]
    refine (ends_pruneOrphans above record.forks.elements (hshelf.congr ?_ ?_)).mono ?_
    · simp
    · intro f hf
      simp [Ne.symm (hoff f hf)]
    · rintro _ u ⟨hpruned, -⟩
      rw [ends_bind, ends_eraseBlock, note, ends_modify]
      exact (ht'.prune hA' (hpruned.erase hoff)).congr fun k => Repository.value_note ..

theorem ends_expire (hA : A.Sound K) (hr : r.Keeps A)
    (h : (A.main b.chain).head? = some b.stored) :
    Ends (expire b) r fun _ s => s.Keeps (A.expire b.stored) := by
  have h' : (A.main b.stored.chain).head? = some b.stored := by simpa using h
  have hthread := Book.thread_popTail h'
  simp only [Block.chain_stored, Block.affected_stored, Block.hash_stored] at hthread
  rw [expire, ends_query_bind (hr.tailHash_eq b.chain), h]
  simp only [Option.map_some, Block.hash_stored, ne_eq, not_true_eq_false, if_false]
  refine ends_leave hA hr (Book.loses_popTail hA h') (fun pk hpk => ?_) (fun links hf hT hh => ?_)
    ?_
  · rw [hthread, if_neg hpk]
  · refine ends_forM_unthreadBelow hT ((Book.sound_popTail hA h').within b.chain) hh
      b.affected_nodup hf fun pk hpk => ?_
    rw [hthread, if_pos hpk]
  rintro r₂ ⟨hT₂, hframe⟩
  have habove : mainHashAbove r₂ b.chain b.height =
      .ok ((A.main b.chain).tail.head?.map Block.hash) := by
    rw [← mainHashAbove_eq hA hr h, mainHashAbove, mainHashAbove]
    split
    · next above _ =>
      have hload : r₂.findHeight b.chain above = r.findHeight b.chain above :=
        Repository.load_congr (hframe (.height b.chain above) id) _
      rw [Repository.mainHashAt, hload, Repository.mainHashAt]
    · rfl
  rw [ends_query_bind habove]
  -- the tail was the only block, or the next one becomes the tail
  cases hrest : (A.main b.chain).tail with
  | nil =>
    simp only [List.head?_nil, Option.map_none]
    rw [ends_bind, ends_delete, ends_bind, ends_delete]
    refine ends_expireForks hA hr h' ⟨?_, ?_, ?_, fun k hk h₁ h₂ => ?_⟩
    · exact hT₂.congr fun k hk => by cases k <;> first | exact hk.elim | simp
    · simp [hrest]
    · simp [hrest]
    · simp [Ne.symm h₁, Ne.symm h₂, hframe k hk]
  | cons t rest =>
    simp only [List.head?_cons, Option.map_some]
    rw [setTail, ends_bind, ends_put]
    refine ends_expireForks hA hr h' ⟨?_, ?_, ?_, fun k hk h₁ h₂ => ?_⟩
    · exact hT₂.congr fun k hk => by cases k <;> first | exact hk.elim | simp
    · have htip := hframe (.tip b.chain) id
      obtain ⟨hi, hm⟩ := List.head?_eq_some_iff.1 h
      obtain rfl : hi = t::rest := by simpa [hm] using hrest
      simp [htip, hr.tip, hm, List.getLast?_cons]
    · simp [hrest]
    · simp [Ne.symm h₂, hframe k hk]

end Transition

end ChainState
