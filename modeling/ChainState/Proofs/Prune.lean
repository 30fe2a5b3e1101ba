import ChainState.Proofs.Book

/-!
# Forks that go with their ancestors

Pruning takes the children of given blocks at one height, then the children of
those at the next height, and so on. What goes is the closure of the given
blocks under descent, and nothing else changes.
-/

set_option autoImplicit false

namespace ChainState

def Key.OfBlocks (hashes : List Hash) : Key → Prop
  | .block x => x ∈ hashes
  | .links x => x ∈ hashes
  | _ => False

instance (hashes : List Hash) : (k : Key) → Decidable (k.OfBlocks hashes)
  | .block x => inferInstanceAs (Decidable (x ∈ hashes))
  | .links x => inferInstanceAs (Decidable (x ∈ hashes))
  | .tip _ | .tail _ | .span _ _ | .height _ _ | .chains =>
    inferInstanceAs (Decidable False)

namespace HeightRecord

theorem main_foldl_remove {record : HeightRecord} {hashes : List Hash}
    (h : ∀ x ∈ hashes, record.main ≠ some x) :
    (hashes.foldl remove record).main = record.main := by
  induction hashes generalizing record with
  | nil => rfl
  | cons x rest ih =>
    have hx : (record.remove x).main = record.main := if_neg (h x (by simp))
    rw [List.foldl_cons, ih (fun y hy => hx ▸ h y (by simp [hy])), hx]

theorem forks_foldl_remove (record : HeightRecord) (hashes : List Hash) (x : Hash) :
    (hashes.foldl remove record).forks.contains x = true ↔
      record.forks.contains x = true ∧ x ∉ hashes := by
  induction hashes generalizing record with
  | nil => simp
  | cons y rest ih =>
    rw [List.foldl_cons, ih]
    simp only [remove, SortedSet.contains_erase, Bool.and_eq_true, decide_eq_true_eq,
      List.mem_cons, not_or]
    tauto

end HeightRecord

variable [Crypto]

namespace Transition

variable {r : Repository}

theorem ends_eraseBlock {x : Hash} {post : Unit → Repository → Prop} :
    Ends (eraseBlock x) r post ↔ post () ((r.delete (.block x)).delete (.links x)) := by
  rw [eraseBlock, ends_bind, ends_delete, ends_delete]

theorem ends_forM_eraseBlock (hashes : List Hash) :
    Ends (hashes.forM eraseBlock) r fun _ s =>
      ∀ k, s.value k = if k.OfBlocks hashes then none else r.value k := by
  refine ends_forM (fun done s => ∀ k, s.value k =
    if k.OfBlocks done then none else r.value k) (fun k => ?_) ?_
  · cases k <;> rfl
  · intro done x rest s _ hs
    rw [ends_eraseBlock]
    intro k
    rw [Repository.value_delete, Repository.value_delete, hs]
    cases k <;> simp [Key.OfBlocks, eq_comm] <;> grind

theorem ends_storeHeight {c : Bytes} {n : Int64} {record : HeightRecord} :
    Ends (storeHeight c n record) r fun _ s =>
      ∀ k, s.value k = if .height c n = k then record.written else r.value k := by
  unfold storeHeight HeightRecord.written
  split
  · rw [ends_delete]
    exact fun k => Repository.value_delete ..
  · rw [saveHeight, ends_put]
    exact fun k => Repository.value_put ..

theorem ends_eraseForks {c : Bytes} {n : Int64} {record : HeightRecord} (hashes : List Hash) :
    Ends (eraseForks c n record hashes) r fun _ s => ∀ k, s.value k =
      if .height c n = k then (hashes.foldl HeightRecord.remove record).written
      else if k.OfBlocks hashes then none else r.value k := by
  rw [eraseForks, ends_bind]
  refine (ends_forM_eraseBlock hashes).mono fun _ s hs => ?_
  refine ends_storeHeight.mono fun _ s' hs' k => ?_
  rw [hs', hs]

end Transition

structure Bereft (fork : Block → Prop) (height : Int64) (removed : List Hash) (b : Block) :
    Prop where
  isFork : fork b
  at_height : b.height = height
  parent_mem : b.parent ∈ removed

/-- The forks that descend from `removed`, from `height` upwards. -/
inductive Orphan (fork : Block → Prop) (height : Int64) (removed : List Hash) : Block → Prop
  | child {b : Block} : fork b → b.height = height → b.parent ∈ removed →
    Orphan fork height removed b
  | descendant {a b : Block} : Orphan fork height removed a → fork b → a.Under b →
    Orphan fork height removed b

namespace Orphan

variable {fork : Block → Prop} {height : Int64} {removed : List Hash} {b : Block}

theorem isFork (h : Orphan fork height removed b) : fork b := by
  cases h with
  | child hf _ _ => exact hf
  | descendant _ hf _ => exact hf

theorem height_le (h : Orphan fork height removed b) : height.toInt ≤ b.height.toInt := by
  induction h with
  | child _ hh _ => simp [hh]
  | descendant _ _ hu ih =>
    have := hu.height_lt
    omega

theorem iff_of_top (htop : Checked.succ? height = none) :
    Orphan fork height removed b ↔ Bereft fork height removed b := by
  constructor
  · intro h
    induction h with
    | child hf hh hp => exact ⟨hf, hh, hp⟩
    | descendant _ _ hu ih =>
      have := hu.2
      rw [ih.at_height, htop] at this
      cases this
  · rintro ⟨hf, hh, hp⟩
    exact .child hf hh hp

theorem not_of_nil : ¬ Orphan fork height [] b := fun h => by
  induction h with
  | child _ _ hp => cases hp
  | descendant _ _ _ ih => exact ih

theorem not_of_bare (hbare : ∀ b, fork b → b.height ≠ height) :
    ¬ Orphan fork height removed b := fun h => by
  induction h with
  | child hf hh _ => exact hbare _ hf hh
  | descendant _ _ _ ih => exact ih

theorem iff_of_succ {above : Int64} (hsucc : Checked.succ? height = some above)
    {children : List Hash}
    (hchildren : ∀ x, x ∈ children ↔ ∃ b, Bereft fork height removed b ∧ b.hash = x) :
    Orphan fork height removed b ↔ Bereft fork height removed b ∨
      Orphan (fun b => fork b ∧ ¬ Bereft fork height removed b) above children b := by
  have habove := Checked.toInt_succ? hsucc
  constructor
  · intro h
    induction h with
    | child hf hh hp => exact .inl ⟨hf, hh, hp⟩
    | @descendant a b _ hf hu ih =>
      have hlt := hu.height_lt
      right
      rcases ih with ih | ih
      · have hb : b.height = above := by
          have := hu.2
          rw [ih.at_height, hsucc] at this
          exact (Option.some.inj this).symm
        refine .child ⟨hf, fun hb' => ?_⟩ hb ((hchildren _).2 ⟨a, ih, hu.1.symm⟩)
        rw [ih.at_height, hb'.at_height] at hlt
        omega
      · have hle := ih.height_le
        refine .descendant ih ⟨hf, fun hb' => ?_⟩ hu
        rw [hb'.at_height] at hlt
        omega
  · rintro (⟨hf, hh, hp⟩ | h)
    · exact .child hf hh hp
    · induction h with
      | child hf hh hp =>
        obtain ⟨a, ⟨haf, hah, hap⟩, hx⟩ := (hchildren _).1 hp
        exact .descendant (.child haf hah hap) hf.1 ⟨hx.symm, by rw [hah, hh, hsucc]⟩
      | descendant _ hf hu ih => exact .descendant ih hf.1 hu

theorem encard_of_succ {above : Int64} (hsucc : Checked.succ? height = some above)
    {children : List Hash}
    (hchildren : ∀ x, x ∈ children ↔ ∃ b, Bereft fork height removed b ∧ b.hash = x) :
    {b | Orphan fork height removed b}.encard = {b | Bereft fork height removed b}.encard +
      {b | Orphan (fun b => fork b ∧ ¬ Bereft fork height removed b) above children b}.encard := by
  rw [← Set.encard_union_eq]
  · congr 1
    ext b
    exact iff_of_succ hsucc hchildren
  · exact Set.disjoint_left.2 fun b hb ho => ho.isFork.2 hb

end Orphan

/-- A block and the forks that descend from it. -/
inductive Descends (fork : Block → Prop) (b : Block) : Block → Prop
  | self : Descends fork b b
  | child {a x : Block} : Descends fork b a → fork x → a.Under x → Descends fork b x

theorem Descends.height_le {fork : Block → Prop} {b x : Block} (h : Descends fork b x) :
    b.height.toInt ≤ x.height.toInt := by
  induction h with
  | self => exact Int.le_refl _
  | child _ _ hu ih =>
    have := hu.height_lt
    omega

theorem Descends.iff_orphan {fork gone : Block → Prop} {n : Int64} {removed : List Hash}
    (hgone : ∀ f, gone f → f.height = n) (hremoved : ∀ x, x ∈ removed ↔ ∃ f, gone f ∧ f.hash = x)
    {x : Block} :
    (∃ f, gone f ∧ Descends fork f x) ↔ gone x ∨ ∃ above, Checked.succ? n = some above ∧
      Orphan (fun f => fork f ∧ ¬ gone f) above removed x := by
  constructor
  · rintro ⟨f, hf, h⟩
    have hfn := hgone f hf
    induction h with
    | self => exact .inl hf
    | @child a x ha hx hu ih =>
      have hne : ¬ gone x := fun hg => by
        have hlt := hu.height_lt
        have hle := ha.height_le
        rw [hgone x hg] at hlt
        rw [hfn] at hle
        omega
      right
      rcases ih with hg | ⟨above, hs, ho⟩
      · exact ⟨x.height, hgone a hg ▸ hu.2,
          .child ⟨hx, hne⟩ rfl ((hremoved _).2 ⟨a, hg, hu.1.symm⟩)⟩
      · exact ⟨above, hs, .descendant ho ⟨hx, hne⟩ hu⟩
  · rintro (hg | ⟨above, hs, ho⟩)
    · exact ⟨x, hg, .self⟩
    · induction ho with
      | child hf hh hp =>
        obtain ⟨f, hg, he⟩ := (hremoved _).1 hp
        exact ⟨f, hg, .child .self hf.1 ⟨he.symm, by rw [hgone f hg, hh, hs]⟩⟩
      | descendant _ hf hu ih =>
        obtain ⟨f, hg, hd⟩ := ih
        exact ⟨f, hg, .child hd hf.1 hu⟩

structure Shelved (main : Int64 → Option Hash) (fork : Block → Prop) (n : Int64)
    (record : HeightRecord) : Prop where
  main : record.main = main n
  forks : ∀ x, record.forks.contains x = true ↔ ∃ b, fork b ∧ b.height = n ∧ b.hash = x

namespace Shelved

variable {main : Int64 → Option Hash} {fork fork' gone : Block → Prop} {n : Int64}
  {record : HeightRecord} {l : List Hash}

theorem congr (h : Shelved main fork n record)
    (hfork : ∀ b, b.height = n → (fork' b ↔ fork b)) : Shelved main fork' n record where
  main := h.main
  forks x := by
    rw [h.forks]
    exact exists_congr fun b => and_congr_left fun hb => (hfork b hb.1).symm

theorem foldl_remove (h : Shelved main fork n record) (hoff : ∀ x ∈ l, main n ≠ some x)
    (hl : ∀ b, fork b → (b.hash ∈ l ↔ gone b)) :
    Shelved main (fun b => fork b ∧ ¬ gone b) n (l.foldl HeightRecord.remove record) where
  main := by
    rw [HeightRecord.main_foldl_remove fun x hx => h.main ▸ hoff x hx, h.main]
  forks x := by
    rw [HeightRecord.forks_foldl_remove, h.forks]
    constructor
    · rintro ⟨⟨b, hb, hn, rfl⟩, hx⟩
      exact ⟨b, ⟨hb, fun hg => hx ((hl b hb).2 hg)⟩, hn, rfl⟩
    · rintro ⟨b, ⟨hb, hg⟩, hn, rfl⟩
      exact ⟨⟨b, hb, hn, rfl⟩, fun hx => hg ((hl b hb).1 hx)⟩

end Shelved

structure Shelf (r : Repository) (chain : Bytes) (main : Int64 → Option Hash)
    (fork : Block → Prop) : Prop where
  height : ∀ n, ∃ o, r.findHeight chain n = .ok o ∧ Shelved main fork n (o.getD .empty)
  block : ∀ b, fork b → r.findBlock b.hash = .ok (some b)
  off : ∀ b, fork b → main b.height ≠ some b.hash

structure Pruned (r s : Repository) (chain : Bytes) (main : Int64 → Option Hash)
    (fork gone : Block → Prop) : Prop where
  isFork : ∀ b, gone b → fork b
  shelf : Shelf s chain main fun b => fork b ∧ ¬ gone b
  erased : ∀ b, gone b → s.value (.block b.hash) = none ∧ s.value (.links b.hash) = none
  rewritten : ∀ b, gone b → ∃ record : HeightRecord,
    s.value (.height chain b.height) = record.written
  frame : ∀ k, (∀ b, gone b → k ≠ .block b.hash ∧ k ≠ .links b.hash ∧
    k ≠ .height chain b.height) → s.value k = r.value k

structure Culled (r s : Repository) (chain : Bytes) (main : Int64 → Option Hash)
    (fork : Block → Prop) (height : Int64) (removed : List Hash) (count : Nat) : Prop where
  pruned : Pruned r s chain main fork (Orphan fork height removed)
  counted : {b | Orphan fork height removed b}.encard = count

theorem Shelf.hash_inj {r : Repository} {chain : Bytes} {main : Int64 → Option Hash}
    {fork : Block → Prop} (h : Shelf r chain main fork) {a b : Block} (ha : fork a)
    (hb : fork b) (he : a.hash = b.hash) : a = b := by
  have hq := h.block a ha
  rw [he, h.block b hb] at hq
  simpa using hq.symm

theorem Shelf.congr {r s : Repository} {chain : Bytes} {main : Int64 → Option Hash}
    {fork : Block → Prop} (h : Shelf r chain main fork)
    (hheight : ∀ n, s.value (.height chain n) = r.value (.height chain n))
    (hblock : ∀ f, fork f → s.value (.block f.hash) = r.value (.block f.hash)) :
    Shelf s chain main fork where
  height n := by
    obtain ⟨o, hq, ho⟩ := h.height n
    exact ⟨o, (Repository.load_congr (hheight n) _).trans hq, ho⟩
  block f hf := (Repository.load_congr (hblock f hf) _).trans (h.block f hf)
  off := h.off

namespace Pruned

variable {r s t : Repository} {chain : Bytes} {main : Int64 → Option Hash}
  {fork gone : Block → Prop}

theorem refl (h : Shelf r chain main fork) (hgone : ∀ b, ¬ gone b) :
    Pruned r r chain main fork gone where
  isFork b hb := (hgone b hb).elim
  shelf := by
    have : (fun b => fork b ∧ ¬ gone b) = fork := by
      funext b
      simp [hgone]
    rw [this]
    exact h
  erased b hb := (hgone b hb).elim
  rewritten b hb := (hgone b hb).elim
  frame _ _ := rfl

theorem congr {gone' : Block → Prop} (h : Pruned r s chain main fork gone)
    (he : ∀ b, gone' b ↔ gone b) : Pruned r s chain main fork gone' := by
  have : gone' = gone := funext fun b => propext (he b)
  rw [this]
  exact h

theorem trans {gone' : Block → Prop} (hshelf : Shelf r chain main fork)
    (h : Pruned r s chain main fork gone)
    (h' : Pruned s t chain main (fun b => fork b ∧ ¬ gone b) gone') :
    Pruned r t chain main fork fun b => gone b ∨ gone' b where
  isFork b hb := hb.elim (h.isFork b) fun hb => (h'.isFork b hb).1
  shelf := by
    have : (fun b => fork b ∧ ¬ (gone b ∨ gone' b)) =
        fun b => (fork b ∧ ¬ gone b) ∧ ¬ gone' b := by
      funext b
      simp [not_or, and_assoc]
    rw [this]
    exact h'.shelf
  erased b hb := by
    by_cases hb' : gone' b
    · exact h'.erased b hb'
    · have hgone := hb.resolve_right hb'
      have hne : ∀ a, gone' a → b.hash ≠ a.hash := fun a ha e => hb' <| by
        rw [hshelf.hash_inj (h.isFork b hgone) (h'.isFork a ha).1 e]
        exact ha
      obtain ⟨hblock, hlinks⟩ := h.erased b hgone
      refine ⟨(h'.frame _ fun a ha => ?_).trans hblock, (h'.frame _ fun a ha => ?_).trans hlinks⟩
      · simpa using hne a ha
      · simpa using hne a ha
  rewritten b hb := by
    by_cases hn : ∃ a, gone' a ∧ a.height = b.height
    · obtain ⟨a, ha, he⟩ := hn
      exact he ▸ h'.rewritten a ha
    · rcases hb with hb | hb
      · obtain ⟨record, hv⟩ := h.rewritten b hb
        refine ⟨record, (h'.frame _ fun a ha => ?_).trans hv⟩
        simpa using fun e : b.height = a.height => hn ⟨a, ha, e.symm⟩
      · exact (hn ⟨b, hb, rfl⟩).elim
  frame k hk :=
    (h'.frame k fun b hb => hk b (.inr hb)).trans (h.frame k fun b hb => hk b (.inl hb))

theorem erase (h : Pruned r s chain main fork gone) {x : Hash} (hx : ∀ f, fork f → f.hash ≠ x) :
    Pruned ((r.delete (.block x)).delete (.links x)) ((s.delete (.block x)).delete (.links x))
      chain main fork gone where
  isFork := h.isFork
  shelf := h.shelf.congr (fun n => by simp) fun f hf => by simp [Ne.symm (hx f hf.1)]
  erased b hb := by simp [h.erased b hb]
  rewritten b hb := by simpa using h.rewritten b hb
  frame k hk := by simp [h.frame k hk]

end Pruned

namespace Transition

variable {r : Repository} {chain : Bytes} {main : Int64 → Option Hash} {fork : Block → Prop}

theorem ends_childrenAmong (parents : List Hash) {hashes : List Hash}
    (h : ∀ x ∈ hashes, ∃ b, r.findBlock x = .ok (some b)) :
    Ends (childrenAmong parents hashes) r fun l s => s = r ∧ l.Sublist hashes ∧ ∀ x, x ∈ l ↔
      x ∈ hashes ∧ ∃ b, r.findBlock x = .ok (some b) ∧ b.parent ∈ parents := by
  induction hashes with
  | nil =>
    rw [childrenAmong, ends_pure]
    simp
  | cons x rest ih =>
    obtain ⟨b, hb⟩ := h x (by simp)
    rw [childrenAmong, ends_query_bind hb, ends_bind]
    refine (ih fun y hy => h y (by simp [hy])).mono ?_
    rintro others s ⟨rfl, hsub, hothers⟩
    by_cases hp : b.parent ∈ parents
    · simp only [hp, if_true]
      rw [ends_pure]
      refine ⟨rfl, hsub.cons_cons x, fun y => ?_⟩
      by_cases hy : y = x
      · subst hy
        simp [hb, hp]
      · simp [hy, hothers]
    · simp only [hp, if_false]
      rw [ends_pure]
      refine ⟨rfl, hsub.cons x, fun y => ?_⟩
      by_cases hy : y = x
      · subst hy
        simp [hb, hp, hothers]
      · simp [hy, hothers]

theorem ends_children {n : Int64} {record : HeightRecord} (hshelf : Shelf r chain main fork)
    (hrecord : Shelved main fork n record) (removed : List Hash) :
    Ends (childrenAmong removed record.forks.elements) r fun children s =>
      s = r ∧ children.Nodup ∧
        ∀ x, x ∈ children ↔ ∃ b, Bereft fork n removed b ∧ b.hash = x := by
  have hblocks : ∀ x ∈ record.forks.elements, ∃ b, r.findBlock x = .ok (some b) := by
    intro x hx
    obtain ⟨b, hb, -, rfl⟩ := (hrecord.forks x).1 (by simpa using hx)
    exact ⟨b, hshelf.block b hb⟩
  refine (ends_childrenAmong removed hblocks).mono ?_
  rintro children s ⟨rfl, hsub, hchildren⟩
  refine ⟨rfl, record.forks.nodup_elements.sublist hsub, fun x => ?_⟩
  rw [hchildren, SortedSet.mem_elements, hrecord.forks]
  constructor
  · rintro ⟨⟨b, hb, hn, rfl⟩, b', hb', hp⟩
    obtain rfl : b = b' := by simpa [hshelf.block b hb] using hb'
    exact ⟨b, ⟨hb, hn, hp⟩, rfl⟩
  · rintro ⟨b, ⟨hb, hn, hp⟩, rfl⟩
    exact ⟨⟨b, hb, hn, rfl⟩, b, hshelf.block b hb, hp⟩

theorem encard_of_hashes {gone : Block → Prop} {l : List Hash}
    (hinj : ∀ a b, gone a → gone b → a.hash = b.hash → a = b) (hnodup : l.Nodup)
    (hl : ∀ x, x ∈ l ↔ ∃ b, gone b ∧ b.hash = x) : {b | gone b}.encard = l.length := by
  have himage : Block.hash '' {b | gone b} = (l.toFinset : Set Hash) := by
    ext x
    simp [hl]
  have hcount : (Block.hash '' {b | gone b}).encard = {b | gone b}.encard :=
    Set.InjOn.encard_image fun a ha b hb he => hinj a b ha hb he
  rw [← hcount, himage, Set.encard_coe_eq_coe_finsetCard, List.toFinset_card_of_nodup hnodup]

theorem pruned_of_erased {s : Repository} {n : Int64} {record : HeightRecord} {l : List Hash}
    {gone : Block → Prop} (hshelf : Shelf r chain main fork) (hrecord : Shelved main fork n record)
    (hl : ∀ x, x ∈ l ↔ ∃ b, gone b ∧ b.hash = x)
    (hgone : ∀ b, gone b → fork b ∧ b.height = n) (hne : l ≠ [])
    (hs : ∀ k, s.value k =
      if .height chain n = k then (l.foldl HeightRecord.remove record).written
      else if k.OfBlocks l then none else r.value k) :
    Pruned r s chain main fork gone := by
  -- among forks a hash names one block, so the listed hashes stand for the blocks themselves
  have hmem : ∀ b, fork b → (b.hash ∈ l ↔ gone b) := fun b hb => by
    refine ⟨fun h => ?_, fun h => (hl _).2 ⟨b, h, rfl⟩⟩
    obtain ⟨a, ha, he⟩ := (hl _).1 h
    exact hshelf.hash_inj (hgone a ha).1 hb he ▸ ha
  have hoff : ∀ x ∈ l, main n ≠ some x := by
    intro x hx
    obtain ⟨b, hb, rfl⟩ := (hl x).1 hx
    obtain ⟨hf, rfl⟩ := hgone b hb
    exact hshelf.off b hf
  refine ⟨fun b hb => (hgone b hb).1, ⟨fun m => ?_, ?_, ?_⟩, ?_, ?_, ?_⟩
  · by_cases hm : n = m
    · subst hm
      obtain ⟨o, hq, ho⟩ := Repository.findHeight_of_written ((hs (.height chain n)).trans
        (if_pos rfl))
      exact ⟨o, hq, ho ▸ hrecord.foldl_remove hoff hmem⟩
    · obtain ⟨o, hq, ho⟩ := hshelf.height m
      refine ⟨o, (Repository.load_congr ?_ _).trans hq, ho.congr fun b hn => and_iff_left ?_⟩
      · rw [hs, if_neg (by simpa using hm), if_neg (by simp [Key.OfBlocks])]
      · exact fun hg => hm ((hgone b hg).2.symm.trans hn)
  · rintro b ⟨hb, hg⟩
    have hx : b.hash ∉ l := fun h => hg ((hmem b hb).1 h)
    exact (Repository.load_congr (by simp [hs, Key.OfBlocks, hx]) _).trans (hshelf.block b hb)
  · rintro b ⟨hb, -⟩
    exact hshelf.off b hb
  · intro b hb
    have hx : b.hash ∈ l := (hmem b (hgone b hb).1).2 hb
    simp [hs, Key.OfBlocks, hx]
  · intro b hb
    exact ⟨l.foldl HeightRecord.remove record, by simp [hs, (hgone b hb).2]⟩
  · intro k hk
    have hnot : ¬ k.OfBlocks l := fun h => by
      cases k with
      | block x | links x =>
        obtain ⟨b, hb, rfl⟩ := (hl x).1 h
        simpa using hk b hb
      | _ => exact h
    obtain ⟨x, hx⟩ := List.exists_mem_of_ne_nil l hne
    obtain ⟨b, hb, -⟩ := (hl x).1 hx
    have hheight := (hk b hb).2.2
    rw [(hgone b hb).2] at hheight
    rw [hs, if_neg (fun e => hheight e.symm), if_neg hnot]

theorem ends_pruneBelow {s : Repository} {removed orphans : List Hash} {height : Int64}
    (hshelf : Shelf r chain main fork) (hnodup : orphans.Nodup)
    (hl : ∀ x, x ∈ orphans ↔ ∃ b, Bereft fork height removed b ∧ b.hash = x)
    (hs : Pruned r s chain main fork (Bereft fork height removed))
    (hnext : ∀ above, Checked.succ? height = some above →
      Ends (pruneOrphans chain above orphans) s fun count t =>
        Culled s t chain main (fun b => fork b ∧ ¬ Bereft fork height removed b) above orphans
          count) :
    Ends (match _h : Checked.succ? height with
      | none => pure orphans.length
      | some above => do return orphans.length + (← pruneOrphans chain above orphans)) s
      fun count t => Culled r t chain main fork height removed count := by
  have hchildren : {b | Bereft fork height removed b}.encard = orphans.length :=
    encard_of_hashes (fun a b ha hb he => hshelf.hash_inj ha.isFork hb.isFork he) hnodup hl
  split
  · next htop =>
    refine ends_pure.2 ⟨hs.congr fun b => Orphan.iff_of_top htop, ?_⟩
    simp only [Orphan.iff_of_top htop, hchildren]
  · next above hsucc =>
    rw [ends_bind]
    refine (hnext above hsucc).mono fun count t ht => ends_pure.2 ⟨?_, ?_⟩
    · exact (Pruned.trans hshelf hs ht.pruned).congr fun b => Orphan.iff_of_succ hsucc hl
    · rw [Orphan.encard_of_succ hsucc hl, hchildren, ht.counted, Nat.cast_add]

/-- Pruning takes the descendants of `removed`, and nothing else, and counts
them. -/
theorem ends_pruneOrphans (height : Int64) (removed : List Hash)
    (hshelf : Shelf r chain main fork) :
    Ends (pruneOrphans chain height removed) r fun count s =>
      Culled r s chain main fork height removed count := by
  induction hm : (Int64.maxValue.toInt - height.toInt).toNat using Nat.strongRecOn
    generalizing r fork height removed with
  | _ m ih =>
  have hnone (h : ∀ b, ¬ Orphan fork height removed b) :
      Culled r r chain main fork height removed 0 :=
    ⟨.refl hshelf h, by simp [h]⟩
  rw [pruneOrphans]
  by_cases hremoved : removed = []
  · subst hremoved
    rw [if_pos rfl, ends_pure]
    exact hnone fun b => Orphan.not_of_nil
  rw [if_neg hremoved]
  obtain ⟨o, hq, ho⟩ := hshelf.height height
  rw [ends_query_bind hq]
  cases o with
  | none =>
    refine ends_pure.2 (hnone fun b => Orphan.not_of_bare fun b hb hn => ?_)
    simpa [HeightRecord.empty] using (ho.forks b.hash).2 ⟨b, hb, hn, rfl⟩
  | some record =>
    simp only [Option.getD_some] at ho
    rw [ends_bind]
    refine (ends_children hshelf ho removed).mono ?_
    rintro orphans s ⟨rfl, hnodup, hl⟩
    -- the heights still to be visited are fewer
    have hnext {s' : Repository} {fork' : Block → Prop} (hs' : Shelf s' chain main fork')
        (above : Int64) (hsucc : Checked.succ? height = some above) :
        Ends (pruneOrphans chain above orphans) s' fun count t =>
          Culled s' t chain main fork' above orphans count := by
      have habove := Checked.toInt_succ? hsucc
      have hmax := Int64.toInt_le above
      exact ih _ (by omega) above orphans hs' rfl
    dsimp only
    by_cases hnil : orphans = []
    · rw [if_pos hnil]
      have hs : Pruned s s chain main fork (Bereft fork height removed) := by
        refine .refl hshelf fun b hb => ?_
        have := (hl b.hash).2 ⟨b, hb, rfl⟩
        simp [hnil] at this
      exact ends_pruneBelow hshelf hnodup hl hs (hnext hs.shelf)
    · rw [if_neg hnil, ends_bind]
      apply (ends_eraseForks orphans).mono
      intro _ s' hs'
      have hs' := pruned_of_erased hshelf ho hl (fun b hb => ⟨hb.isFork, hb.at_height⟩) hnil hs'
      exact ends_pruneBelow hshelf hnodup hl hs' (hnext hs'.shelf)

end Transition

end ChainState
