import ChainState.Proofs.Inverses

/-!
# What a call asks for

A call on a repository asks for one condition at its outset and depends on
nothing else: where the condition holds the call goes through, and where it
does not the call is refused with a fault of linkage before it writes. The
reads that follow the first write find what they look for, whatever the
history.
-/

set_option autoImplicit false

namespace ChainState

theorem Checked.succ?_eq_some_iff {a b : Int64} :
    succ? a = some b ↔ a ≠ Int64.maxValue ∧ b = a + 1 := by
  have hnext : Int64.ofInt (a.toInt + 1) = a + 1 := by
    rw [Int64.ofInt_add, Int64.ofInt_toInt]
    rfl
  have hfits : (Int64.minValue.toInt ≤ a.toInt + 1 ∧ a.toInt + 1 ≤ Int64.maxValue.toInt) ↔
      a ≠ Int64.maxValue := by
    have hlow : Int64.minValue.toInt ≤ a.toInt := Int64.le_toInt a
    have hhigh := Int64.toInt_le a
    rw [ne_eq, ← Int64.toInt_inj]
    omega
  rw [succ?, add?, show (1 : Int64).toInt = 1 from rfl, ofInt?, hnext]
  simp only [hfits, Option.ite_none_right_eq_some, Option.some.injEq, @eq_comm _ (a + 1) b]

open Transition

section

variable [Crypto]

namespace Transition

/-- `t` succeeds on `r` just if `p` holds. Where it fails, it names `x` as the
block that cannot be linked, and nothing has changed. -/
structure Guarded (x : Hash) (t : Transition Unit) (r : Repository) (p : Prop) : Prop where
  succeeds_iff : Ends t r (fun _ _ => True) ↔ p
  refused : ∀ e s, t.run.run r = (.error e, s) → (∃ fault, e = .linkage x fault) ∧ s = r

namespace Guarded

variable {x : Hash} {t : Transition Unit} {r : Repository} {p q : Prop}

theorem of_refuses {post : Unit → Repository → Prop} (hp : p → Ends t r post)
    (hn : ¬ p → ∃ fault, Refuses t r (.linkage x fault)) : Guarded x t r p where
  succeeds_iff := by
    refine ⟨fun h => ?_, fun h => (hp h).mono fun _ _ _ => trivial⟩
    by_contra hnot
    obtain ⟨fault, hf⟩ := hn hnot
    exact hf.not_ends h
  refused e s hrun := by
    by_cases h : p
    · obtain ⟨y, u, hok, -⟩ := hp h
      cases hok.symm.trans hrun
    · obtain ⟨fault, hf⟩ := hn h
      cases hf.symm.trans hrun
      exact ⟨⟨fault, rfl⟩, rfl⟩

theorem congr (h : Guarded x t r p) (hpq : p ↔ q) : Guarded x t r q where
  succeeds_iff := h.succeeds_iff.trans hpq
  refused := h.refused

end Guarded

end Transition

variable {K : Registry} {A : Book} {r : Repository} {b : Block}

namespace Repository.Keeps

theorem takesTip_iff (hr : r.Keeps A) (hA : A.Sound K) :
    A.TakesTip b ↔ r.tip b.chain = .ok none ∨ ∃ tip, r.tip b.chain = .ok (some tip) ∧
      b.parent = tip.hash ∧ tip.height ≠ Int64.maxValue ∧ b.height = tip.height + 1 := by
  rw [hr.tip_eq hA, Book.TakesTip]
  cases (A.main b.chain).getLast? with
  | none => simp
  | some tip => simp [Block.Under, Checked.succ?_eq_some_iff]

theorem takesTail_iff (hr : r.Keeps A) (hA : A.Sound K) :
    A.TakesTail b ↔ ∃ tail, r.tail b.chain = .ok (some tail) ∧
      tail.parent = b.hash ∧ b.height ≠ Int64.maxValue ∧ tail.height = b.height + 1 := by
  rw [hr.tail_eq hA, Book.TakesTail]
  cases (A.main b.chain).head? with
  | none => simp
  | some tail => simp [Block.Under, Checked.succ?_eq_some_iff]

end Repository.Keeps

namespace Transition

theorem guarded_connectTip (hA : A.Sound K) (hr : r.Keeps A) (hb : K.known b.stored) :
    Guarded b.hash (connectTip b) r (A.TakesTip b) :=
  .of_refuses (ends_connectTip hA hr hb) (refuses_connectTip hA hr)

theorem guarded_connectTail (hA : A.Sound K) (hr : r.Keeps A) (hb : K.known b.stored) :
    Guarded b.hash (connectTail b) r (A.TakesTail b) :=
  .of_refuses (ends_connectTail hA hr hb) (refuses_connectTail hA hr)

theorem guarded_rollBack (hA : A.Sound K) (hr : r.Keeps A) (hb : K.known b.stored) :
    Guarded b.hash (rollBack b) r (r.tipHash b.chain = .ok (some b.hash)) := by
  rw [hr.tipHash_eq, Except.ok.injEq, hash_eq_tip hA hb fun x hx => List.mem_of_getLast? hx]
  exact .of_refuses (ends_rollBack hA hr) fun h => ⟨.notTip, refuses_rollBack hA hr hb h⟩

theorem guarded_expire (hA : A.Sound K) (hr : r.Keeps A) (hb : K.known b.stored) :
    Guarded b.hash (expire b) r (r.tailHash b.chain = .ok (some b.hash)) := by
  rw [hr.tailHash_eq, Except.ok.injEq, hash_eq_tip hA hb fun x hx => List.mem_of_mem_head? hx]
  exact .of_refuses (ends_expire hA hr) fun h => ⟨.notTail, refuses_expire hA hr hb h⟩

theorem guarded_saveFork (hA : A.Sound K) (hr : r.Keeps A) (hb : K.known b.stored) :
    Guarded b.hash (saveFork b) r True :=
  .of_refuses (fun _ => ends_saveFork hA hr hb) fun h => absurd trivial h

theorem guarded_deleteBlock (hA : A.Sound K) (hr : r.Keeps A) (x : Hash) :
    Guarded x (deleteBlock x) r (∀ c n, r.mainHashAt c n ≠ .ok (some x)) := by
  have hends (hoff : ∀ c n, r.mainHashAt c n ≠ .ok (some x)) :
      Ends (deleteBlock x) r fun _ _ => True := by
    rcases hr.findBlock_cases hA x with ⟨b, hb | hb, rfl, -⟩ | ⟨hx, -⟩
    · exact absurd ((hr.mainHashAt_eq_some_iff hA).2 ⟨b, hb, rfl, rfl⟩) (hoff b.chain b.height)
    · exact (ends_deleteBlock hA hr hb).mono fun _ _ _ => trivial
    · exact (ends_deleteBlock_unknown hr hx).mono fun _ _ _ => trivial
  refine .of_refuses hends fun hon => ?_
  simp only [not_forall, not_not] at hon
  obtain ⟨c, n, hmain⟩ := hon
  obtain ⟨b, hb, -, rfl⟩ := (hr.mainHashAt_eq_some_iff hA).1 hmain
  exact ⟨.onBestChain, refuses_deleteBlock hA hr hb⟩

end Transition

/-- After any history, each call succeeds under a condition on the best chain
alone, and a call that fails says that its block cannot be linked and changes
nothing. -/
theorem ChainCall.run_succeeds_iff {calls : List ChainCall}
    (h : Admissible (b::calls.filterMap block?)) :
    Guarded b.hash (Transition.connectTip b) (run calls)
      ((run calls).tip b.chain = .ok none ∨ ∃ tip, (run calls).tip b.chain = .ok (some tip) ∧
        b.parent = tip.hash ∧ tip.height ≠ Int64.maxValue ∧ b.height = tip.height + 1) ∧
    Guarded b.hash (Transition.connectTail b) (run calls)
      (∃ tail, (run calls).tail b.chain = .ok (some tail) ∧
        tail.parent = b.hash ∧ b.height ≠ Int64.maxValue ∧ tail.height = b.height + 1) ∧
    Guarded b.hash (Transition.rollBack b) (run calls)
      ((run calls).tipHash b.chain = .ok (some b.hash)) ∧
    Guarded b.hash (Transition.expire b) (run calls)
      ((run calls).tailHash b.chain = .ok (some b.hash)) ∧
    Guarded b.hash (Transition.saveFork b) (run calls) True ∧
    ∀ x, Guarded x (Transition.deleteBlock x) (run calls)
      (∀ c n, (run calls).mainHashAt c n ≠ .ok (some x)) := by
  obtain ⟨hA, hr, hb⟩ := keeps_beside h
  exact ⟨(guarded_connectTip hA hr hb).congr (hr.takesTip_iff hA),
    (guarded_connectTail hA hr hb).congr (hr.takesTail_iff hA),
    guarded_rollBack hA hr hb, guarded_expire hA hr hb, guarded_saveFork hA hr hb,
    guarded_deleteBlock hA hr⟩

end

section

attribute [local instance] checksum

/-- The tip of two blocks can only be rolled back. -/
theorem ChainCall.run_succeeds_iff_pair :
    Admissible (secondBlock::pairCalls.filterMap block?) ∧
    Ends (Transition.rollBack secondBlock) (run pairCalls) (fun _ _ => True) ∧
    (¬ Ends (Transition.connectTip secondBlock) (run pairCalls) fun _ _ => True) ∧
    (¬ Ends (Transition.connectTail secondBlock) (run pairCalls) fun _ _ => True) ∧
    (¬ Ends (Transition.expire secondBlock) (run pairCalls) fun _ _ => True) ∧
    ¬ Ends (Transition.deleteBlock secondBlock.hash) (run pairCalls) fun _ _ => True := by
  obtain ⟨hA, hr, -⟩ := keeps_beside admissible_beside_pairCalls
  obtain ⟨hconnect, hback, hroll, hexpire, -, hdelete⟩ :=
    run_succeeds_iff admissible_beside_pairCalls
  have hmain : (book pairCalls).main secondBlock.chain =
      [firstBlock.stored, secondBlock.stored] := by decide +kernel
  refine ⟨admissible_beside_pairCalls, hroll.succeeds_iff.2 ?_, fun h => ?_, fun h => ?_,
    fun h => ?_, fun h => ?_⟩
  · rw [hr.tipHash_eq, hmain]
    simp
  · have htip : ¬ (book pairCalls).TakesTip secondBlock := by decide +kernel
    exact htip ((hr.takesTip_iff hA).2 (hconnect.succeeds_iff.1 h))
  · have htail : ¬ (book pairCalls).TakesTail secondBlock := by decide +kernel
    exact htail ((hr.takesTail_iff hA).2 (hback.succeeds_iff.1 h))
  · have hne : firstBlock.hash ≠ secondBlock.hash := by decide +kernel
    have htail := hexpire.succeeds_iff.1 h
    rw [hr.tailHash_eq, hmain] at htail
    simp [hne] at htail
  · refine (hdelete _).succeeds_iff.1 h secondBlock.chain secondBlock.height ?_
    exact (hr.mainHashAt_eq_some_iff hA).2 ⟨secondBlock.stored, by simp [hmain], by simp, by simp⟩

end

end ChainState
