import ChainState.Proofs.Layers

/-!
# What a transition adds

A transition that moves the best chain reads values and nothing else, and what
it does to the topmost batch is to add writes and, at its end, a noted block.
So two repositories that agree on all values are changed by it in the same
way, however their layers are made up.
-/

set_option autoImplicit false

namespace ChainState

variable [Crypto]

namespace Batch

structure Alike (a b : Batch) : Prop where
  writes : ∀ k : Key, a.writes[k]? = b.writes[k]?
  noted : a.noted = b.noted

namespace Alike

variable {a b c : Batch}

theorem refl (a : Batch) : a.Alike a := ⟨fun _ => rfl, rfl⟩

theorem symm (h : a.Alike b) : b.Alike a := ⟨fun k => (h.writes k).symm, h.noted.symm⟩

theorem trans (h : a.Alike b) (h' : b.Alike c) : a.Alike c :=
  ⟨fun k => (h.writes k).trans (h'.writes k), h.noted.trans h'.noted⟩

theorem append {a' b' : Batch} (h : a.Alike b) (h' : a'.Alike b') :
    (a.append a').Alike (b.append b') where
  writes k := by simp only [Batch.append, Std.HashMap.getElem?_union, h.writes, h'.writes]
  noted := by simp only [Batch.append, h.noted, h'.noted]

end Alike

theorem append_empty_alike (a : Batch) : (a.append .empty).Alike a where
  writes k := by simp [Batch.append, Batch.empty, Std.HashMap.getElem?_union]
  noted := by simp [Batch.append, Batch.empty]

theorem append_assoc_alike (a b c : Batch) :
    ((a.append b).append c).Alike (a.append (b.append c)) where
  writes k := by simp only [Batch.append, Std.HashMap.getElem?_union, Option.or_assoc]
  noted := by simp only [Batch.append, List.append_assoc]

def Additive (f : Batch → Batch) : Prop := ∀ b, (f b).Alike (b.append (f .empty))

theorem additive_id : Additive id := fun b => (append_empty_alike b).symm

theorem Additive.comp {f g : Batch → Batch} (hg : Additive g) (hf : Additive f) :
    Additive (g ∘ f) := by
  intro b
  have hleft : (g (f b)).Alike ((b.append (f .empty)).append (g .empty)) :=
    (hg _).trans ((hf b).append (.refl _))
  have hright : (b.append (g (f .empty))).Alike (b.append ((f .empty).append (g .empty))) :=
    (Alike.refl b).append (hg _)
  exact hleft.trans ((append_assoc_alike _ _ _).trans hright.symm)

theorem additive_insert (k : Key) (v : Option Bytes) :
    Additive fun b => { b with writes := b.writes.insert k v } := by
  intro b
  refine ⟨fun k' => ?_, by simp [append, empty]⟩
  simp only [append, empty, Std.HashMap.getElem?_union, Std.HashMap.getElem?_insert]
  by_cases hk : k = k' <;> simp [hk]

theorem additive_noted (block : Block) :
    Additive fun b => { b with noted := b.noted ++ [block] } := by
  intro b
  exact ⟨fun k => by simp [append, empty, Std.HashMap.getElem?_union], by simp [append, empty]⟩

theorem additive_append (upper : Batch) : Additive (·.append upper) := fun b =>
  (Alike.refl b).append ⟨fun k => by simp [append, empty, Std.HashMap.getElem?_union], rfl⟩

end Batch

open Batch (Additive)

namespace Repository

def ByValue {α : Type} (q : Repository → α) : Prop :=
  ∀ r d : Repository, (∀ k, d.value k = r.value k) → q d = q r

theorem value_amend {f : Batch → Batch} (hf : Additive f) (r : Repository) (k : Key) :
    (r.amend f).value k = ((f .empty).writes[k]?).getD (r.value k) := by
  have hlookup : ∀ (b : Batch) (below : List Layer),
      lookup k ((f b).writes::below) =
        ((f .empty).writes[k]?).getD (lookup k (b.writes::below)) := by
    intro b below
    simp only [lookup, (hf b).writes, Batch.append, Std.HashMap.getElem?_union]
    cases (f .empty).writes[k]? <;> rfl
  obtain ⟨store, staged, overlays⟩ := r
  cases overlays with
  | nil => exact hlookup staged _
  | cons top below => exact hlookup top.batch _

section

variable {α : Type}

theorem byValue_load (k : Key) (decode : Bytes → Except Bencode.ReadError α) :
    ByValue (·.load k decode) := by
  intro r d h
  simp only [load, h]

theorem ByValue.map {β : Type} {q : Repository → α} (hq : ByValue q) (f : α → β) :
    ByValue fun r => f (q r) :=
  fun r d h => congrArg f (hq r d h)

theorem ByValue.bind {β : Type} {q : Repository → Query α} {q' : α → Repository → Query β}
    (hq : ByValue q) (hq' : ∀ x, ByValue (q' x)) : ByValue fun r => q r >>= (q' · r) := by
  intro r d h
  simp only [hq r d h, hq' _ r d h]

theorem byValue_const (x : α) : ByValue fun _ => x := fun _ _ _ => rfl

end

theorem byValue_chains : ByValue (·.chains) :=
  (byValue_load .chains chainsOfRecord).map (Except.map (·.getD .empty))

theorem byValue_findHeight (chain : Bytes) (height : Int64) :
    ByValue (·.findHeight chain height) :=
  byValue_load _ _

theorem byValue_mainHashAt (chain : Bytes) (height : Int64) :
    ByValue (·.mainHashAt chain height) :=
  (byValue_findHeight chain height).bind fun _ => byValue_const _

theorem byValue_mainHashAbove (chain : Bytes) (height : Int64) :
    ByValue (Transition.mainHashAbove · chain height) := by
  unfold Transition.mainHashAbove
  cases Checked.succ? height with
  | none => exact byValue_const _
  | some above => exact byValue_mainHashAt chain above

theorem byValue_findBlock (hash : Hash) : ByValue (·.findBlock hash) := byValue_load _ _

theorem byValue_namedBlock (hash : Hash) : ByValue (·.namedBlock hash) :=
  (byValue_findBlock hash).bind fun o => by
    cases o <;> exact byValue_const _

theorem byValue_tip (chain : Bytes) : ByValue (·.tip chain) :=
  (byValue_load (.tip chain) hashOfRecord).bind fun o => by
    cases o with
    | none => exact byValue_const _
    | some hash => exact (byValue_namedBlock hash).bind fun _ => byValue_const _

theorem byValue_tail (chain : Bytes) : ByValue (·.tail chain) :=
  (byValue_load (.tail chain) hashOfRecord).bind fun o => by
    cases o with
    | none => exact byValue_const _
    | some hash => exact (byValue_namedBlock hash).bind fun _ => byValue_const _

end Repository

namespace Transition

variable {ε α β : Type}

def noted (blocks : List Block) : Except ε α → List Block
  | .ok _ => blocks
  | .error _ => []

/-- `t` adds to the topmost batch and changes nothing else. What it adds and
answers depends on values alone, and it notes `blocks` if it succeeds. -/
def Amends (blocks : List Block) (t : ExceptT ε (StateM Repository) α) : Prop :=
  ∀ r : Repository, ∃ x f, Additive f ∧ (f .empty).noted = noted blocks x ∧
    ∀ d : Repository, (∀ k, d.value k = r.value k) → t.run.run d = (x, d.amend f)

variable {blocks : List Block}

theorem Amends.toLocal {t : ExceptT ε (StateM Repository) α} (h : Amends blocks t) : Local t := by
  intro r
  obtain ⟨x, f, -, -, hrun⟩ := h r
  exact ⟨f, by rw [hrun r fun _ => rfl]⟩

theorem amends_pure (x : α) : Amends [] (pure x : ExceptT ε (StateM Repository) α) := by
  intro r
  exact ⟨.ok x, id, Batch.additive_id, rfl, fun d _ => by rw [d.amend_id]; rfl⟩

theorem amends_throw (e : ε) : Amends blocks (throw e : ExceptT ε (StateM Repository) α) := by
  intro r
  exact ⟨.error e, id, Batch.additive_id, rfl, fun d _ => by rw [d.amend_id]; rfl⟩

theorem amends_bind {t : ExceptT ε (StateM Repository) α}
    {g : α → ExceptT ε (StateM Repository) β} (ht : Amends [] t)
    (hg : ∀ x, Amends blocks (g x)) : Amends blocks (t >>= g) := by
  intro r
  obtain ⟨x, f, hf, hnoted, hrun⟩ := ht r
  cases x with
  | error e => exact ⟨.error e, f, hf, hnoted, fun d hd => run_bind_error (hrun d hd)⟩
  | ok x =>
    obtain ⟨y, g', hg', hnoted', hrun'⟩ := hg x (r.amend f)
    refine ⟨y, g' ∘ f, hg'.comp hf, ?_, fun d hd => ?_⟩
    · show (g' (f .empty)).noted = _
      rw [(hg' _).noted, Batch.append, hnoted, hnoted']
      rfl
    · -- the values still agree after the first part
      have hvalues : ∀ k, (d.amend f).value k = (r.amend f).value k := by
        intro k
        rw [Repository.value_amend hf, Repository.value_amend hf, hd k]
      rw [run_bind_ok (hrun d hd), hrun' _ hvalues, Repository.amend_amend]

theorem amends_ite {p : Prop} [Decidable p] {t u : ExceptT ε (StateM Repository) α}
    (ht : Amends blocks t) (hu : Amends blocks u) : Amends blocks (if p then t else u) := by
  split
  · exact ht
  · exact hu

theorem amends_forM {f : α → ExceptT ε (StateM Repository) Unit} (hf : ∀ x, Amends [] (f x))
    (xs : List α) : Amends [] (xs.forM f) := by
  induction xs with
  | nil => exact amends_pure ()
  | cons x xs ih => exact amends_bind (hf x) fun _ => ih

theorem amends_foldlM {f : β → α → ExceptT ε (StateM Repository) β}
    (hf : ∀ y x, Amends [] (f y x)) (xs : List α) (y : β) : Amends [] (xs.foldlM f y) := by
  induction xs generalizing y with
  | nil => exact amends_pure y
  | cons x xs ih =>
    rw [List.foldlM_cons]
    exact amends_bind (hf y x) ih

theorem amends_discard {t : ExceptT ε (StateM Repository) α} (ht : Amends [] t) :
    Amends [] (discard t) := by
  rw [discard_eq_bind]
  exact amends_bind ht fun _ => amends_pure _

theorem amends_query {q : Repository → Query α} (hq : Repository.ByValue q) :
    Amends [] (query q) := by
  intro r
  cases h : q r with
  | ok x =>
    refine ⟨.ok x, id, Batch.additive_id, rfl, fun d hd => ?_⟩
    rw [run_query_ok ((hq r d hd).trans h), d.amend_id]
  | error e =>
    refine ⟨.error e, id, Batch.additive_id, rfl, fun d hd => ?_⟩
    rw [run_query_error ((hq r d hd).trans h), d.amend_id]

theorem amends_query_bind {q : Repository → Query α} {f : α → Transition β}
    (hq : Repository.ByValue q) (h : ∀ x, Amends blocks (f x)) :
    Amends blocks (query q >>= f) :=
  amends_bind (amends_query hq) h

theorem amends_query_option {q : Repository → Query (Option α)} {f : Option α → Transition β}
    (hq : Repository.ByValue q) (hnone : Amends blocks (f none))
    (hsome : ∀ x, Amends blocks (f (some x))) : Amends blocks (query q >>= f) := by
  apply amends_query_bind hq
  intro x
  cases x with
  | none => exact hnone
  | some x => exact hsome x

theorem amends_modify {f : Batch → Batch} (hf : Additive f)
    (hnoted : (f .empty).noted = blocks) :
    Amends blocks (modify (·.amend f) : ExceptT ε (StateM Repository) Unit) :=
  fun _ => ⟨.ok (), f, hf, hnoted, fun _ _ => rfl⟩

theorem amends_put (k : Key) (v : Bytes) : Amends [] (put k v) :=
  amends_modify (Batch.additive_insert k (some v)) rfl

theorem amends_delete (k : Key) : Amends [] (delete k) :=
  amends_modify (Batch.additive_insert k none) rfl

theorem amends_note (block : Block) : Amends [block] (note block) :=
  amends_modify (Batch.additive_noted block) rfl

theorem amends_amendLinks (hash : Hash) (f : Links → Links) : Amends [] (amendLinks hash f) :=
  amends_query_option (Repository.byValue_load _ _) (amends_pure _) fun _ => amends_put _ _

theorem amends_threadAbove (chain : Bytes) (hash : Hash) (links : Links) (pk : PublicKey) :
    Amends [] (threadAbove chain hash links pk) := by
  apply amends_query_option (Repository.byValue_load _ _)
  · exact amends_bind (amends_put _ _) fun _ => amends_pure _
  · intro span
    apply amends_bind (amends_amendLinks _ _)
    exact fun _ => amends_bind (amends_put _ _) fun _ => amends_pure _

theorem amends_threadBelow (chain : Bytes) (hash : Hash) (links : Links) (pk : PublicKey) :
    Amends [] (threadBelow chain hash links pk) := by
  apply amends_query_option (Repository.byValue_load _ _)
  · exact amends_bind (amends_put _ _) fun _ => amends_pure _
  · intro span
    apply amends_bind (amends_amendLinks _ _)
    exact fun _ => amends_bind (amends_put _ _) fun _ => amends_pure _

theorem amends_unthreadAbove (chain : Bytes) (hash : Hash) (links : Links) (pk : PublicKey) :
    Amends [] (unthreadAbove chain hash links pk) := by
  refine amends_ite ?_ (amends_bind (amends_amendLinks _ _) fun _ => ?_)
  all_goals
    apply amends_query_option (Repository.byValue_load _ _) (amends_delete _)
    exact fun _ => amends_ite (amends_delete _) (amends_put _ _)

theorem amends_unthreadBelow (chain : Bytes) (links : Links) (pk : PublicKey) :
    Amends [] (unthreadBelow chain links pk) := by
  unfold unthreadBelow
  cases links.next.find? pk with
  | none => exact amends_delete _
  | some next =>
    apply amends_bind (amends_amendLinks _ _)
    intro _
    exact amends_query_option (Repository.byValue_load _ _) (amends_pure _) fun _ => amends_put _ _

theorem amends_heightRecord (chain : Bytes) (height : Int64) :
    Amends [] (heightRecord chain height) :=
  amends_query_bind (Repository.byValue_findHeight chain height) fun _ => amends_pure _

theorem amends_promote (block : Block) (hash : Hash) : Amends [] (promote block hash) :=
  amends_bind (amends_heightRecord _ _) fun _ => amends_put _ _

theorem amends_addChain (chain : Bytes) : Amends [] (addChain chain) := by
  apply amends_query_bind Repository.byValue_chains
  intro chains
  exact amends_ite (amends_pure _) (amends_put _ _)

theorem amends_eraseBlock (hash : Hash) : Amends [] (eraseBlock hash) :=
  amends_bind (amends_delete _) fun _ => amends_delete _

theorem amends_storeHeight (chain : Bytes) (height : Int64) (record : HeightRecord) :
    Amends [] (storeHeight chain height record) :=
  amends_ite (amends_delete _) (amends_put _ _)

theorem amends_eraseForks (chain : Bytes) (height : Int64) (record : HeightRecord)
    (forks : List Hash) : Amends [] (eraseForks chain height record forks) :=
  amends_bind (amends_forM amends_eraseBlock forks) fun _ => amends_storeHeight _ _ _

theorem amends_childrenAmong (parents hashes : List Hash) :
    Amends [] (childrenAmong parents hashes) := by
  induction hashes with
  | nil => exact amends_pure _
  | cons hash rest ih =>
    apply amends_query_bind (Repository.byValue_findBlock hash)
    intro child
    apply amends_bind ih
    intro others
    cases child with
    | none => exact amends_pure _
    | some child => exact amends_pure _

theorem amends_pruneOrphans (chain : Bytes) (height : Int64) (removed : List Hash) :
    Amends [] (pruneOrphans chain height removed) := by
  induction hm : (Int64.maxValue.toInt - height.toInt).toNat using Nat.strongRecOn
    generalizing height removed with
  | _ m ih =>
  rw [pruneOrphans]
  apply amends_ite (amends_pure _)
  refine amends_query_option (Repository.byValue_findHeight chain height) (amends_pure _)
    fun record => ?_
  apply amends_bind (amends_childrenAmong _ _)
  intro orphans
  refine amends_ite ?next (amends_bind (amends_eraseForks _ _ _ _) fun _ => ?next)
  split
  · exact amends_pure _
  · next above hsucc =>
    have habove := Checked.toInt_succ? hsucc
    have hmax := Int64.toInt_le above
    exact amends_bind (ih _ (by omega) above orphans rfl) fun _ => amends_pure _

theorem amends_checkAboveTip (block : Block) : Amends [] (checkAboveTip block) := by
  refine amends_query_option (Repository.byValue_tip _) (amends_pure _) fun tip => ?_
  have hheight : Amends [] (if Checked.succ? tip.height ≠ some block.height then
      linkFault block (.heightGap block.height tip.height) else pure ()) :=
    amends_ite (amends_throw _) (amends_pure _)
  exact amends_ite (amends_bind (amends_throw _) fun _ => hheight) hheight

theorem amends_checkBelowTail (block : Block) (hash : Hash) :
    Amends [] (checkBelowTail block hash) := by
  apply amends_query_option (Repository.byValue_tail _) (amends_throw _)
  exact fun _ => amends_ite (amends_throw _) (amends_pure _)

theorem amends_connectTip (block : Block) : Amends [block] (connectTip block) := by
  apply amends_bind (amends_checkAboveTip block)
  intro _
  apply amends_bind (amends_put _ _)
  intro _
  apply amends_bind (amends_foldlM (amends_threadAbove _ _) _ _)
  intro links
  apply amends_bind (amends_put _ _)
  intro _
  apply amends_bind (amends_promote _ _)
  intro _
  apply amends_bind (amends_put _ _)
  intro _
  apply amends_query_bind (Repository.byValue_load _ _)
  intro tail
  have hend : Amends [block] (do addChain block.chain; note block) :=
    amends_bind (amends_addChain _) fun _ => amends_note _
  exact amends_ite (amends_bind (amends_put _ _) fun _ => hend) hend

theorem amends_connectTail (block : Block) : Amends [block] (connectTail block) := by
  apply amends_bind (amends_checkBelowTail block _)
  intro _
  apply amends_bind (amends_put _ _)
  intro _
  apply amends_bind (amends_foldlM (amends_threadBelow _ _) _ _)
  intro links
  apply amends_bind (amends_put _ _)
  intro _
  apply amends_bind (amends_promote _ _)
  intro _
  exact amends_bind (amends_put _ _) fun _ => amends_note _

theorem amends_rollBack (block : Block) : Amends [block] (rollBack block) := by
  apply amends_query_bind (Repository.byValue_load _ _)
  intro tip
  refine amends_ite (amends_bind (amends_throw _) fun _ => ?_) ?_
  all_goals
    apply amends_query_bind (Repository.byValue_load _ _)
    intro links
    apply amends_bind (amends_forM (amends_unthreadAbove _ _ _) _)
    intro _
    apply amends_bind (amends_delete _)
    intro _
    apply amends_bind (amends_heightRecord _ _)
    intro record
    apply amends_bind (amends_put _ _)
    intro _
    apply amends_query_bind (Repository.byValue_load _ _)
    intro tail
    refine amends_ite (amends_bind (amends_delete _) fun _ => ?_) (amends_bind (amends_put _ _) ?_)
    · exact amends_bind (amends_delete _) fun _ => amends_note _
    · exact fun _ => amends_note _

theorem amends_expire (block : Block) : Amends [block] (expire block) := by
  apply amends_query_bind (Repository.byValue_load _ _)
  intro tail
  refine amends_ite (amends_bind (amends_throw _) fun _ => ?_) ?_
  all_goals
    apply amends_query_bind (Repository.byValue_load _ _)
    intro links
    apply amends_bind (amends_forM (amends_unthreadBelow _ _) _)
    intro _
    refine amends_query_option (Repository.byValue_mainHashAbove _ _)
      (amends_bind (amends_delete _) fun _ => amends_bind (amends_delete _) fun _ => ?_)
      fun next => amends_bind (amends_put _ _) fun _ => ?_
    all_goals
      apply amends_bind (amends_heightRecord _ _)
      intro record
      apply amends_bind (amends_forM amends_eraseBlock _)
      intro _
      apply amends_bind (amends_delete _)
      intro _
      have hend : Amends [block] (do eraseBlock block.hash; note block) :=
        amends_bind (amends_eraseBlock _) fun _ => amends_note _
      cases Checked.succ? block.height with
      | none => exact hend
      | some above =>
        exact amends_bind (amends_discard (amends_pruneOrphans _ _ _)) fun _ => hend

theorem amends_saveFork (block : Block) : Amends [] (saveFork block) := by
  apply amends_bind (amends_put _ _)
  intro _
  exact amends_bind (amends_heightRecord _ _) fun _ => amends_put _ _

theorem amends_deleteBlock (hash : Hash) : Amends [] (deleteBlock hash) := by
  refine amends_query_option (Repository.byValue_findBlock hash) (amends_pure _) fun block => ?_
  refine amends_query_option (Repository.byValue_findHeight _ _) ?erased fun record =>
    amends_ite
      (amends_bind (amends_throw _) fun _ =>
        amends_bind (amends_storeHeight _ _ _) fun _ => ?erased)
      (amends_bind (amends_storeHeight _ _ _) fun _ => ?erased)
  apply amends_bind (amends_eraseBlock hash)
  intro _
  cases Checked.succ? block.height with
  | none => exact amends_pure _
  | some above => exact amends_discard (amends_pruneOrphans _ _ _)

end Transition

end ChainState
