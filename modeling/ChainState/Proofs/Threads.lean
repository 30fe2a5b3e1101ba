import ChainState.Proofs.Records
import ChainState.Proofs.Runs

/-!
# The threads of accounts

The blocks that name an account form its thread, the oldest first. Its span
names the two ends, and the links of every block on it name the neighbours.
Blocks join and leave a thread at either end only.
-/

set_option autoImplicit false

namespace ChainState

instance : LawfulBEq PublicKey := inferInstance

namespace Thread

def above (x : Hash) : List Hash → Option Hash
  | [] => none
  | y::rest => if y = x then rest.head? else above x rest

def below (x : Hash) (t : List Hash) : Option Hash := above x t.reverse

def span? (t : List Hash) : Option Span :=
  t.getLast?.map fun latest => ⟨latest, t.head?.getD latest⟩

variable {x h : Hash} {t : List Hash}

theorem above_of_not_mem (hx : x ∉ t) : above x t = none := by
  induction t with
  | nil => rfl
  | cons y rest ih =>
    rw [above, if_neg (fun e => hx (by simp [e]))]
    exact ih (fun hm => hx (List.mem_cons_of_mem _ hm))

theorem above_cons (hx : x ≠ h) : above x (h::t) = above x t := by
  rw [above, if_neg hx.symm]

theorem above_concat (hx : x ≠ h) (ht : t.Nodup) :
    above x (t ++ [h]) = if t.getLast? = some x then some h else above x t := by
  induction t with
  | nil => simp [above, hx.symm]
  | cons y rest ih =>
    obtain ⟨hy, hrest⟩ := List.nodup_cons.1 ht
    rw [List.cons_append, above, above, List.getLast?_cons]
    by_cases hyx : y = x
    · subst hyx
      cases rest with
      | nil => simp
      | cons z rest =>
        have hlast : ((z::rest).getLast?.getD y) ≠ y := by
          intro he
          apply hy
          rw [List.getLast?_eq_some_getLast (List.cons_ne_nil z rest)] at he
          exact he ▸ List.getLast_mem _
        simp [hlast]
    · rw [if_neg hyx, if_neg hyx, ih hrest]
      cases rest with
      | nil => simp [hyx]
      | cons z rest => simp [List.getLast?_cons]

theorem below_concat (hx : x ≠ h) : below x (t ++ [h]) = below x t := by
  simp [below, above_cons hx]

theorem below_cons (hx : x ≠ h) (ht : t.Nodup) :
    below x (h::t) = if t.head? = some x then some h else below x t := by
  have := above_concat hx (List.nodup_reverse.2 ht)
  simpa [below] using this

theorem above_split {lo hi : List Hash} (hx : x ∉ lo) :
    above x (lo ++ x::hi) = hi.head? := by
  induction lo with
  | nil => simp [above]
  | cons y lo ih =>
    rw [List.cons_append, above, if_neg (fun e => hx (by simp [e]))]
    exact ih (fun hm => hx (List.mem_cons_of_mem _ hm))

theorem above_last (ht : t.Nodup) (hx : t.getLast? = some x) : above x t = none := by
  obtain ⟨lo, rfl⟩ := List.getLast?_eq_some_iff.1 hx
  rw [above_split (fun hm => (List.nodup_append.1 ht).2.2 x hm x (by simp) rfl)]
  rfl

theorem below_head (ht : t.Nodup) (hx : t.head? = some x) : below x t = none :=
  above_last (List.nodup_reverse.2 ht) (by simpa using hx)

theorem below_split {lo hi : List Hash} (hx : x ∉ hi) :
    below x (lo ++ x::hi) = lo.getLast? := by
  have hsplit : (lo ++ x::hi).reverse = hi.reverse ++ x::lo.reverse := by simp
  rw [below, hsplit, above_split (by simpa using hx), List.head?_reverse]

theorem below_self (hx : x ∉ t) : below x (x::t) = none := by
  rw [← List.nil_append (x::t), below_split hx, List.getLast?_nil]

@[simp] theorem span?_nil : span? [] = none := rfl

@[simp] theorem span?_concat : span? (t ++ [h]) = some ⟨h, t.head?.getD h⟩ := by
  simp [span?]

@[simp] theorem span?_cons : span? (h::t) = some ⟨t.getLast?.getD h, h⟩ := by
  simp [span?, List.getLast?_cons]

structure Within (nodes : List Hash) (threads : PublicKey → List Hash) : Prop where
  nodup : ∀ pk, (threads pk).Nodup
  mem : ∀ pk, ∀ x ∈ threads pk, x ∈ nodes

def mix (pks : List PublicKey) (threads threads' : PublicKey → List Hash) :
    PublicKey → List Hash :=
  fun pk => if pk ∈ pks then threads' pk else threads pk

@[simp] theorem mix_nil (threads threads' : PublicKey → List Hash) :
    mix [] threads threads' = threads := by
  funext pk
  simp [mix]

theorem mix_of_not_mem {pks : List PublicKey} {pk : PublicKey} (h : pk ∉ pks)
    (threads threads' : PublicKey → List Hash) : mix pks threads threads' pk = threads pk :=
  if_neg h

theorem update_mix {done : List PublicKey} {pk : PublicKey}
    (threads threads' : PublicKey → List Hash) :
    Function.update (mix done threads threads') pk (threads' pk) =
      mix (done ++ [pk]) threads threads' := by
  funext pk'
  by_cases hpk : pk' = pk
  · subst hpk
    simp [mix]
  · simp [mix, hpk]

end Thread

structure Links.Follows (l : Links) (x : Hash) (threads : PublicKey → List Hash) : Prop where
  block : l.block = x
  previous : ∀ pk, l.previous.find? pk =
    if x ∈ threads pk then some ((Thread.below x (threads pk)).getD .zero) else none
  next : ∀ pk, l.next.find? pk = Thread.above x (threads pk)

namespace Links.Follows

variable {l l' : Links} {x : Hash} {threads : PublicKey → List Hash} {pk : PublicKey}
  {t : List Hash}

theorem update (h : l.Follows x threads) (hb : l'.block = l.block)
    (hp : l'.previous.find? pk =
      if x ∈ t then some ((Thread.below x t).getD .zero) else none)
    (hn : l'.next.find? pk = Thread.above x t)
    (hrest : ∀ pk', pk' ≠ pk → l'.previous.find? pk' = l.previous.find? pk' ∧
      l'.next.find? pk' = l.next.find? pk') :
    l'.Follows x (Function.update threads pk t) where
  block := hb.trans h.block
  previous pk' := by
    by_cases hpk : pk' = pk
    · subst hpk
      simpa using hp
    · rw [(hrest pk' hpk).1, h.previous, Function.update_of_ne hpk]
  next pk' := by
    by_cases hpk : pk' = pk
    · subst hpk
      simpa using hn
    · rw [(hrest pk' hpk).2, h.next, Function.update_of_ne hpk]

theorem push_above {h : Hash} (hl : l.Follows x threads) (hx : x ≠ h)
    (ht : (threads pk).Nodup) :
    (if (threads pk).getLast? = some x then l.setNext pk h else l).Follows x
      (Function.update threads pk (threads pk ++ [h])) := by
  have hprevious : l.previous.find? pk = if x ∈ threads pk ++ [h] then
      some ((Thread.below x (threads pk ++ [h])).getD .zero) else none := by
    simp [hl.previous, Thread.below_concat hx, hx]
  split
  · next hlast =>
    refine hl.update rfl hprevious ?_ fun pk' hpk => by simp [setNext, hpk]
    simp [setNext, Thread.above_concat hx ht, hlast]
  · next hlast =>
    refine hl.update rfl hprevious ?_ fun pk' _ => ⟨rfl, rfl⟩
    simp [hl.next, Thread.above_concat hx ht, hlast]

theorem push_below {h : Hash} (hl : l.Follows x threads) (hx : x ≠ h)
    (ht : (threads pk).Nodup) :
    (if (threads pk).head? = some x then l.setPrevious pk h else l).Follows x
      (Function.update threads pk (h::threads pk)) := by
  have hnext : l.next.find? pk = Thread.above x (h::threads pk) := by
    rw [hl.next, Thread.above_cons hx]
  split
  · next hhead =>
    have hm : x ∈ threads pk := List.mem_of_mem_head? hhead
    refine hl.update rfl ?_ hnext fun pk' hpk => by simp [setPrevious, hpk]
    simp [setPrevious, Thread.below_cons hx ht, hhead, hm]
  · next hhead =>
    refine hl.update rfl ?_ hnext fun pk' _ => ⟨rfl, rfl⟩
    simp [hl.previous, Thread.below_cons hx ht, hhead, hx]

theorem pop_above {h : Hash} (hl : l.Follows x threads) (hx : x ≠ h)
    (hpop : threads pk = t ++ [h]) (ht : t.Nodup) :
    (if t.getLast? = some x then l.clearNext pk else l).Follows x
      (Function.update threads pk t) := by
  have hprevious : l.previous.find? pk =
      if x ∈ t then some ((Thread.below x t).getD .zero) else none := by
    simp [hl.previous, hpop, Thread.below_concat hx, hx]
  split
  · next hlast =>
    refine hl.update rfl hprevious ?_ fun pk' hpk => by simp [clearNext, hpk]
    simp [clearNext, Thread.above_last ht hlast]
  · next hlast =>
    refine hl.update rfl hprevious ?_ fun pk' _ => ⟨rfl, rfl⟩
    simp [hl.next, hpop, Thread.above_concat hx ht, hlast]

theorem pop_below {h : Hash} (hl : l.Follows x threads) (hx : x ≠ h)
    (hpop : threads pk = h::t) (ht : t.Nodup) :
    (if t.head? = some x then l.setPrevious pk .zero else l).Follows x
      (Function.update threads pk t) := by
  have hnext : l.next.find? pk = Thread.above x t := by
    rw [hl.next, hpop, Thread.above_cons hx]
  split
  · next hhead =>
    have hm : x ∈ t := List.mem_of_mem_head? hhead
    refine hl.update rfl ?_ hnext fun pk' hpk => by simp [setPrevious, hpk]
    simp [setPrevious, Thread.below_head ht hhead, hm]
  · next hhead =>
    refine hl.update rfl ?_ hnext fun pk' _ => ⟨rfl, rfl⟩
    simp [hl.previous, hpop, Thread.below_cons hx ht, hhead, hx]

end Links.Follows

theorem Links.encode_inj {a b : Links} (h : a.encode = b.encode) : a = b := by
  have hd := a.decode_encode
  rw [h, b.decode_encode] at hd
  exact (Except.ok.inj hd).symm

variable [Crypto]

structure Threaded (r : Repository) (chain : Bytes) (nodes : List Hash)
    (threads : PublicKey → List Hash) : Prop where
  span : ∀ pk, r.value (.span chain pk) = (Thread.span? (threads pk)).map Span.encode
  links : ∀ x ∈ nodes, ∃ l : Links, r.value (.links x) = some l.encode ∧ l.Follows x threads

def Key.OnThreads (chain : Bytes) (nodes : List Hash) : Key → Prop
  | .span c _ => c = chain
  | .links x => x ∈ nodes
  | _ => False

structure Rethreaded (r s : Repository) (chain : Bytes) (nodes : List Hash)
    (threads : PublicKey → List Hash) : Prop where
  threads : Threaded s chain nodes threads
  frame : ∀ k, ¬ k.OnThreads chain nodes → s.value k = r.value k

namespace Repository

theorem load_none {α : Type} {r : Repository} {k : Key}
    {decode : Bytes → Except Bencode.ReadError α} (h : r.value k = none) :
    r.load k decode = .ok none := by
  rw [load, h]

theorem load_some {α : Type} {r : Repository} {k : Key} {x : α} {bytes : Bytes}
    {decode : Bytes → Except Bencode.ReadError α} (h : r.value k = some bytes)
    (hd : decode bytes = .ok x) : r.load k decode = .ok (some x) := by
  simp only [load, h, hd]

theorem load_congr {α : Type} {r s : Repository} {k : Key} (h : s.value k = r.value k)
    (decode : Bytes → Except Bencode.ReadError α) : s.load k decode = r.load k decode := by
  rw [load, h, load]

theorem load_map {α : Type} {r : Repository} {k : Key} {x : Option α} {encode : α → Bytes}
    {decode : Bytes → Except Bencode.ReadError α} (h : r.value k = x.map encode)
    (hd : ∀ y, decode (encode y) = .ok y) : r.load k decode = .ok x := by
  cases x with
  | none => exact load_none h
  | some y => exact load_some h (hd y)

theorem findSpan_put_links (r : Repository) (x : Hash) (v : Bytes) (chain : Bytes)
    (pk : PublicKey) : (r.put (.links x) v).findSpan chain pk = r.findSpan chain pk := by
  exact load_congr (by simp) _

end Repository

namespace Threaded

variable {r s : Repository} {chain : Bytes} {nodes : List Hash}
  {threads : PublicKey → List Hash} {pk : PublicKey}

theorem findSpan_eq (h : Threaded r chain nodes threads) (pk : PublicKey) :
    r.findSpan chain pk = .ok (Thread.span? (threads pk)) :=
  Repository.load_map (h.span pk) Span.decode_encode

theorem congr (h : Threaded r chain nodes threads)
    (hs : ∀ k, Key.OnThreads chain nodes k → s.value k = r.value k) :
    Threaded s chain nodes threads where
  span pk := (hs (.span chain pk) rfl).trans (h.span pk)
  links x hx := by
    obtain ⟨l, hl, hf⟩ := h.links x hx
    exact ⟨l, (hs (.links x) hx).trans hl, hf⟩

theorem subset {nodes' : List Hash} (h : Threaded r chain nodes threads)
    (hsub : ∀ x ∈ nodes', x ∈ nodes) : Threaded r chain nodes' threads where
  span := h.span
  links x hx := h.links x (hsub x hx)

theorem attach {l : Links} {h : Hash} {nodes' : List Hash} (hT : Threaded r chain nodes threads)
    (hl : l.Follows h threads) (hs : s.value (.links h) = some l.encode)
    (hoff : ∀ k, k ≠ .links h → k.OnThreads chain nodes → s.value k = r.value k)
    (hnodes : ∀ x ∈ nodes', x = h ∨ x ∈ nodes) : Threaded s chain nodes' threads where
  span pk := (hoff (.span chain pk) (by simp) rfl).trans (hT.span pk)
  links x hx := by
    by_cases hxh : x = h
    · subst hxh
      exact ⟨l, hs, hl⟩
    · have hm := (hnodes x hx).resolve_left hxh
      obtain ⟨l', hl', hf⟩ := hT.links x hm
      exact ⟨l', (hoff (.links x) (by simpa using hxh) hm).trans hl', hf⟩

theorem rewire {t : List Hash} {y : Option Hash} {f : Links → Links}
    (h : Threaded r chain nodes threads)
    (hspan : s.value (.span chain pk) = (Thread.span? t).map Span.encode)
    (hy : ∀ x, y = some x → x ∈ nodes ∧ ∃ l : Links,
      r.value (.links x) = some l.encode ∧ s.value (.links x) = some (f l).encode)
    (hoff : ∀ k, k ≠ .span chain pk → (∀ x, y = some x → k ≠ .links x) →
      s.value k = r.value k)
    (hf : ∀ x ∈ nodes, ∀ l : Links, l.Follows x threads →
      (if y = some x then f l else l).Follows x (Function.update threads pk t)) :
    Rethreaded r s chain nodes (Function.update threads pk t) := by
  refine ⟨⟨fun pk' => ?_, fun x hx => ?_⟩, fun k hk => ?_⟩
  · by_cases hpk : pk' = pk
    · subst hpk
      rw [hspan, Function.update_self]
    · rw [hoff _ (by simp [hpk]) (by simp), h.span, Function.update_of_ne hpk]
  · obtain ⟨l, hl, hfollows⟩ := h.links x hx
    refine ⟨_, ?_, hf x hx l hfollows⟩
    split
    · next hyx =>
      obtain ⟨-, l', hl', hs⟩ := hy x hyx
      have he : l.encode = l'.encode := by simpa [hl] using hl'
      rw [hs, Links.encode_inj he]
    · next hyx =>
      rw [hoff _ (by simp) (fun x' hx' e => hyx (by simpa [hx'] using e.symm)), hl]
  · refine hoff k (fun e => hk (e ▸ rfl)) (fun x hx e => hk ?_)
    rw [e]
    exact (hy x hx).1

end Threaded

namespace Rethreaded

variable {r s t : Repository} {chain : Bytes} {nodes : List Hash} {pk : PublicKey}
  {threads threads' : PublicKey → List Hash}

theorem nil (h : Threaded r chain nodes threads) :
    Rethreaded r r chain nodes (Thread.mix [] threads threads') where
  threads := by rwa [Thread.mix_nil]
  frame _ _ := rfl

theorem concat {done : List PublicKey}
    (h : Rethreaded r s chain nodes (Thread.mix done threads threads'))
    (h' : Rethreaded s t chain nodes
      (Function.update (Thread.mix done threads threads') pk (threads' pk))) :
    Rethreaded r t chain nodes (Thread.mix (done ++ [pk]) threads threads') where
  threads := by
    rw [← Thread.update_mix]
    exact h'.threads
  frame k hk := (h'.frame k hk).trans (h.frame k hk)

end Rethreaded

namespace Transition

variable {α β : Type} {r : Repository} {chain : Bytes} {nodes : List Hash}
  {threads : PublicKey → List Hash} {pk : PublicKey} {h : Hash}

theorem ends_amendLinks {x : Hash} {l : Links} {f : Links → Links}
    {post : Unit → Repository → Prop} (hl : r.value (.links x) = some l.encode) :
    Ends (amendLinks x f) r post ↔ post () (r.put (.links (f l).block) (f l).encode) := by
  have hq : r.findLinks x = .ok (some l) := Repository.load_some hl (Links.decode_encode l)
  rw [amendLinks, ends_query_bind hq]
  exact ends_put

theorem ends_threadAbove (hT : Threaded r chain nodes threads) (ht : (threads pk).Nodup)
    (hsub : ∀ x ∈ threads pk, x ∈ nodes) (hh : h ∉ nodes) (links : Links) :
    Ends (threadAbove chain h links pk) r fun links' s =>
      links' = links.setPrevious pk ((threads pk).getLast?.getD .zero) ∧
      Rethreaded r s chain nodes (Function.update threads pk (threads pk ++ [h])) := by
  have hf : ∀ x ∈ nodes, ∀ l : Links, l.Follows x threads → _ := fun x hx l hl =>
    hl.push_above (h := h) (fun e => hh (e ▸ hx)) ht
  rw [threadAbove, ends_query_bind (hT.findSpan_eq pk)]
  rcases List.eq_nil_or_concat' (threads pk) with hnil | ⟨lo, y, hlast⟩
  · rw [hnil, Thread.span?_nil, saveSpan, ends_bind, ends_put, ends_pure]
    rw [hnil] at hf
    refine ⟨rfl, hT.rewire (y := none) (f := id) ?_ (by simp) (fun k hk _ => ?_) hf⟩
    · simp
    · simp [hk.symm]
  · have hy : y ∈ nodes := hsub y (by simp [hlast])
    obtain ⟨l, hl, hfollows⟩ := hT.links y hy
    rw [hlast] at hf ⊢
    simp only [List.getLast?_concat] at hf
    rw [Thread.span?_concat]
    simp only
    rw [ends_bind, ends_amendLinks hl, saveSpan, ends_bind, ends_put, ends_pure]
    have hb : (l.setNext pk h).block = y := hfollows.block
    refine ⟨by simp, hT.rewire ?_ (fun x hx => ?_) (fun k hk hk' => ?_) hf⟩
    · rw [Thread.span?_concat]
      cases lo <;> simp
    · cases hx
      exact ⟨hy, l, hl, by simp [hb]⟩
    · simp [hk.symm, hb, (hk' y rfl).symm]

theorem ends_threadBelow (hT : Threaded r chain nodes threads) (ht : (threads pk).Nodup)
    (hsub : ∀ x ∈ threads pk, x ∈ nodes) (hh : h ∉ nodes) (links : Links)
    (hnext : links.next.find? pk = none) :
    Ends (threadBelow chain h links pk) r fun links' s =>
      (links'.block = links.block ∧
        links'.previous = (links.setPrevious pk .zero).previous ∧
        ∀ pk', links'.next.find? pk' =
          if pk' = pk then (threads pk).head? else links.next.find? pk') ∧
      Rethreaded r s chain nodes (Function.update threads pk (h::threads pk)) := by
  have hf : ∀ x ∈ nodes, ∀ l : Links, l.Follows x threads → _ := fun x hx l hl =>
    hl.push_below (h := h) (fun e => hh (e ▸ hx)) ht
  rw [threadBelow, ends_query_bind (hT.findSpan_eq pk)]
  cases hhead : threads pk with
  | nil =>
    rw [Thread.span?_nil, saveSpan, ends_bind, ends_put, ends_pure]
    rw [hhead] at hf
    refine ⟨⟨rfl, rfl, fun pk' => ?_⟩, hT.rewire (y := none) (f := id) ?_ (by simp)
      (fun k hk _ => ?_) hf⟩
    · by_cases hpk : pk' = pk
      · subst hpk
        simpa [Links.setPrevious] using hnext
      · simp [hpk, Links.setPrevious]
    · simp
    · simp [hk.symm]
  | cons y hi =>
    have hy : y ∈ nodes := hsub y (by simp [hhead])
    obtain ⟨l, hl, hfollows⟩ := hT.links y hy
    rw [hhead] at hf
    simp only [List.head?_cons] at hf
    rw [Thread.span?_cons]
    simp only
    rw [ends_bind, ends_amendLinks hl, saveSpan, ends_bind, ends_put, ends_pure]
    have hb : (l.setPrevious pk h).block = y := hfollows.block
    refine ⟨⟨rfl, rfl, fun pk' => ?_⟩, hT.rewire ?_ (fun x hx => ?_) (fun k hk hk' => ?_) hf⟩
    · simp [Links.setNext, Links.setPrevious]
    · simp [List.getLast?_cons]
    · cases hx
      exact ⟨hy, l, hl, by simp [hb]⟩
    · simp [hk.symm, hb, (hk' y rfl).symm]

theorem ends_unthreadAbove {t : List Hash} (hT : Threaded r chain nodes threads)
    (hpop : threads pk = t ++ [h]) (ht : t.Nodup) (hsub : ∀ x ∈ t, x ∈ nodes) (hh : h ∉ nodes)
    (hz : ∀ x ∈ nodes, x ≠ .zero) {links : Links}
    (hprev : links.previousOf pk = t.getLast?.getD .zero) :
    Ends (unthreadAbove chain h links pk) r fun _ s =>
      Rethreaded r s chain nodes (Function.update threads pk t) := by
  have hf : ∀ x ∈ nodes, ∀ l : Links, l.Follows x threads → _ := fun x hx l hl =>
    hl.pop_above (h := h) (fun e => hh (e ▸ hx)) hpop ht
  rw [unthreadAbove, hprev]
  rcases List.eq_nil_or_concat' t with rfl | ⟨lo, y, rfl⟩
  · have hzero : (FixedBytes.zero : Hash).isZero = true := by simp [FixedBytes.isZero]
    simp only [List.getLast?_nil, Option.getD_none, hzero, if_true]
    rw [ends_query_bind (hT.findSpan_eq pk), hpop, Thread.span?_concat]
    simp only [true_or, if_true, ends_delete]
    refine hT.rewire (y := none) (f := id) ?_ (by simp) (fun k hk _ => ?_) hf
    · simp
    · simp [hk.symm]
  · have hy : y ∈ nodes := hsub y (by simp)
    have hyz : y.isZero = false := by simpa [FixedBytes.isZero] using hz y hy
    obtain ⟨l, hl, hfollows⟩ := hT.links y hy
    have hb : (l.clearNext pk).block = y := hfollows.block
    have holdest : (lo ++ [y]).head?.getD h ≠ h := by
      cases lo with
      | nil => exact fun e => hh (e ▸ hy)
      | cons z lo => exact fun e => hh (e ▸ hsub z (by simp))
    simp only [List.getLast?_concat, Option.getD_some, hyz] at hf ⊢
    rw [if_neg Bool.false_ne_true, ends_bind, ends_amendLinks hl,
      ends_query_bind ((r.findSpan_put_links _ _ chain pk).trans (hT.findSpan_eq pk)), hpop,
      Thread.span?_concat]
    simp only [Bool.false_eq_true, false_or, if_neg holdest, saveSpan, ends_put]
    refine hT.rewire ?_ (fun x hx => ?_) (fun k hk hk' => ?_) hf
    · cases lo <;> simp
    · cases hx
      exact ⟨hy, l, hl, by simp [hb]⟩
    · simp [hk.symm, hb, (hk' y rfl).symm]

theorem ends_unthreadBelow {t : List Hash} (hT : Threaded r chain nodes threads)
    (hpop : threads pk = h::t) (ht : t.Nodup) (hsub : ∀ x ∈ t, x ∈ nodes) (hh : h ∉ nodes)
    {links : Links} (hnext : links.next.find? pk = t.head?) :
    Ends (unthreadBelow chain links pk) r fun _ s =>
      Rethreaded r s chain nodes (Function.update threads pk t) := by
  have hf : ∀ x ∈ nodes, ∀ l : Links, l.Follows x threads → _ := fun x hx l hl =>
    hl.pop_below (h := h) (fun e => hh (e ▸ hx)) hpop ht
  rw [unthreadBelow, hnext]
  cases t with
  | nil =>
    simp only [List.head?_nil, ends_delete]
    refine hT.rewire (y := none) (f := id) ?_ (by simp) (fun k hk _ => ?_) hf
    · simp
    · simp [hk.symm]
  | cons y hi =>
    have hy : y ∈ nodes := hsub y (by simp)
    obtain ⟨l, hl, hfollows⟩ := hT.links y hy
    have hb : (l.setPrevious pk .zero).block = y := hfollows.block
    simp only [List.head?_cons] at hf ⊢
    rw [ends_bind, ends_amendLinks hl,
      ends_query_bind ((r.findSpan_put_links _ _ chain pk).trans (hT.findSpan_eq pk)), hpop,
      Thread.span?_cons]
    simp only [saveSpan, ends_put]
    refine hT.rewire ?_ (fun x hx => ?_) (fun k hk hk' => ?_) hf
    · simp [List.getLast?_cons]
    · cases hx
      exact ⟨hy, l, hl, by simp [hb]⟩
    · simp [hk.symm, hb, (hk' y rfl).symm]

omit [Crypto] in
theorem not_mem_done {done rest pks : List PublicKey} (hp : pks.Nodup)
    (hpks : pks = done ++ pk::rest) : pk ∉ done := by
  rw [hpks] at hp
  exact fun hm => (List.nodup_append.1 hp).2.2 pk hm pk (by simp) rfl

variable {pks : List PublicKey}

theorem ends_foldlM_threadAbove (hT : Threaded r chain nodes threads)
    (hw : Thread.Within nodes threads) (hh : h ∉ nodes) (hp : pks.Nodup) :
    Ends (pks.foldlM (threadAbove chain h) (.ofBlock h)) r fun links s =>
      links.Follows h (Thread.mix pks threads (threads · ++ [h])) ∧
      Rethreaded r s chain nodes (Thread.mix pks threads (threads · ++ [h])) := by
  refine (ends_foldlM (fun done links s =>
    (links.block = h ∧ (∀ pk, links.next.find? pk = none) ∧
      ∀ pk, links.previous.find? pk =
        if pk ∈ done then some ((threads pk).getLast?.getD .zero) else none) ∧
    Rethreaded r s chain nodes (Thread.mix done threads (threads · ++ [h]))) ?_ ?_).mono ?_
  · exact ⟨by simp [Links.ofBlock], .nil hT⟩
  · rintro done pk rest links s hpks ⟨⟨hb, hn, hprev⟩, hs⟩
    have hpk := not_mem_done hp hpks
    have hmix := Thread.mix_of_not_mem hpk threads (threads · ++ [h])
    refine (ends_threadAbove hs.threads (by rw [hmix]; exact hw.nodup pk)
      (by rw [hmix]; exact hw.mem pk) hh links).mono ?_
    rintro links' s' ⟨rfl, hs'⟩
    rw [hmix] at hs' ⊢
    refine ⟨⟨hb, hn, fun pk' => ?_⟩, hs.concat hs'⟩
    by_cases he : pk' = pk
    · subst he
      simp [Links.setPrevious]
    · simp [Links.setPrevious, hprev, he]
  · rintro links s ⟨⟨hb, hn, hprev⟩, hs⟩
    refine ⟨⟨hb, fun pk => ?_, fun pk => ?_⟩, hs⟩
    · have hpk : h ∉ threads pk := fun hm => hh (hw.mem pk h hm)
      by_cases hm : pk ∈ pks
      · simp [hprev, hm, Thread.mix, Thread.below_split]
      · simp [hprev, hm, Thread.mix, hpk]
    · have hpk : h ∉ threads pk := fun hm => hh (hw.mem pk h hm)
      by_cases hm : pk ∈ pks
      · simp [hn, hm, Thread.mix, Thread.above_split hpk]
      · simp [hn, hm, Thread.mix, Thread.above_of_not_mem hpk]

theorem ends_foldlM_threadBelow (hT : Threaded r chain nodes threads)
    (hw : Thread.Within nodes threads) (hh : h ∉ nodes) (hp : pks.Nodup) :
    Ends (pks.foldlM (threadBelow chain h) (.ofBlock h)) r fun links s =>
      links.Follows h (Thread.mix pks threads (h::threads ·)) ∧
      Rethreaded r s chain nodes (Thread.mix pks threads (h::threads ·)) := by
  refine (ends_foldlM (fun done links s =>
    (links.block = h ∧
      (∀ pk, links.previous.find? pk = if pk ∈ done then some .zero else none) ∧
      ∀ pk, links.next.find? pk = if pk ∈ done then (threads pk).head? else none) ∧
    Rethreaded r s chain nodes (Thread.mix done threads (h::threads ·))) ?_ ?_).mono ?_
  · exact ⟨by simp [Links.ofBlock], .nil hT⟩
  · rintro done pk rest links s hpks ⟨⟨hb, hprev, hn⟩, hs⟩
    have hpk := not_mem_done hp hpks
    have hmix := Thread.mix_of_not_mem hpk threads (h::threads ·)
    refine (ends_threadBelow hs.threads (by rw [hmix]; exact hw.nodup pk)
      (by rw [hmix]; exact hw.mem pk) hh links (by simp [hn, hpk])).mono ?_
    rintro links' s' ⟨⟨hb', hprev', hn'⟩, hs'⟩
    rw [hmix] at hs' hn'
    refine ⟨⟨hb'.trans hb, fun pk' => ?_, fun pk' => ?_⟩, hs.concat hs'⟩
    · by_cases he : pk' = pk
      · subst he
        simp [hprev', Links.setPrevious]
      · simp [hprev', Links.setPrevious, hprev, he]
    · by_cases he : pk' = pk
      · subst he
        simp [hn']
      · simp [hn', hn, he]
  · rintro links s ⟨⟨hb, hprev, hn⟩, hs⟩
    refine ⟨⟨hb, fun pk => ?_, fun pk => ?_⟩, hs⟩
    · have hpk : h ∉ threads pk := fun hm => hh (hw.mem pk h hm)
      by_cases hm : pk ∈ pks
      · simp [hprev, hm, Thread.mix, Thread.below_self hpk]
      · simp [hprev, hm, Thread.mix, hpk]
    · have hpk : h ∉ threads pk := fun hm => hh (hw.mem pk h hm)
      by_cases hm : pk ∈ pks
      · simp [hn, hm, Thread.mix, Thread.above]
      · simp [hn, hm, Thread.mix, Thread.above_of_not_mem hpk]

theorem ends_forM_unthreadAbove {threads' : PublicKey → List Hash}
    (hT : Threaded r chain nodes threads) (hw : Thread.Within nodes threads') (hh : h ∉ nodes)
    (hz : ∀ x ∈ nodes, x ≠ .zero) (hp : pks.Nodup) {links : Links}
    (hlinks : links.Follows h threads) (hpop : ∀ pk ∈ pks, threads pk = threads' pk ++ [h]) :
    Ends (pks.forM (unthreadAbove chain h links)) r fun _ s =>
      Rethreaded r s chain nodes (Thread.mix pks threads threads') := by
  refine ends_forM (fun done s => Rethreaded r s chain nodes (Thread.mix done threads threads'))
    (.nil hT) ?_
  intro done pk rest s hpks hs
  have hpk : pk ∈ pks := by simp [hpks]
  have hmix := Thread.mix_of_not_mem (not_mem_done hp hpks) threads threads'
  have hprevious : links.previousOf pk = (threads' pk).getLast?.getD .zero := by
    simp [Links.previousOf, hlinks.previous, hpop pk hpk, Thread.below_split]
  refine (ends_unthreadAbove hs.threads (by rw [hmix]; exact hpop pk hpk) (hw.nodup pk)
    (hw.mem pk) hh hz hprevious).mono ?_
  exact fun _ s' hs' => hs.concat hs'

theorem ends_forM_unthreadBelow {threads' : PublicKey → List Hash}
    (hT : Threaded r chain nodes threads) (hw : Thread.Within nodes threads') (hh : h ∉ nodes)
    (hp : pks.Nodup) {links : Links} (hlinks : links.Follows h threads)
    (hpop : ∀ pk ∈ pks, threads pk = h::threads' pk) :
    Ends (pks.forM (unthreadBelow chain links)) r fun _ s =>
      Rethreaded r s chain nodes (Thread.mix pks threads threads') := by
  refine ends_forM (fun done s => Rethreaded r s chain nodes (Thread.mix done threads threads'))
    (.nil hT) ?_
  intro done pk rest s hpks hs
  have hpk : pk ∈ pks := by simp [hpks]
  have hmix := Thread.mix_of_not_mem (not_mem_done hp hpks) threads threads'
  have hnext : links.next.find? pk = (threads' pk).head? := by
    simp [hlinks.next, hpop pk hpk, Thread.above]
  refine (ends_unthreadBelow hs.threads (by rw [hmix]; exact hpop pk hpk) (hw.nodup pk)
    (hw.mem pk) hh hnext).mono ?_
  exact fun _ s' hs' => hs.concat hs'

end Transition

end ChainState
