import ChainState.Proofs.Convergence

/-!
# Forks are kept apart

Storing a block beside the best chain, deleting one, and pruning forks leave
the best chains alone, whatever the arguments: a block on a best chain is never
a fork too, and no fork has links. Nothing that is read from the best chains
changes, though forks share the records of their heights with them.
-/

set_option autoImplicit false

namespace ChainState

section

variable [Crypto]

/-- The call is about blocks beside the best chain. -/
def ChainCall.OnForks : ChainCall → Prop
  | .saveFork _ | .deleteBlock _ | .pruneOrphans _ _ _ => True
  | .connectTip _ | .connectTail _ | .rollBack _ | .expire _ => False

/-- `s` has the best chains of `r`, and all that is kept for them or read from
them. -/
structure Repository.SameBestChains (r s : Repository) : Prop where
  tip : ∀ c, s.value (.tip c) = r.value (.tip c)
  tail : ∀ c, s.value (.tail c) = r.value (.tail c)
  span : ∀ c pk, s.value (.span c pk) = r.value (.span c pk)
  links : ∀ x, s.value (.links x) = r.value (.links x)
  chains : s.value .chains = r.value .chains
  mainHashAt : ∀ c n, s.mainHashAt c n = r.mainHashAt c n
  block : ∀ c n x, r.mainHashAt c n = .ok (some x) → s.value (.block x) = r.value (.block x)
  account : ∀ c pk, s.account c pk = r.account c pk
  effectivePower : ∀ c pk, s.effectivePower c pk = r.effectivePower c pk

variable {K : Registry} {A B : Book} {r s : Repository}

theorem ChainCall.OnForks.after_eq {call : ChainCall} (h : call.OnForks) (A : Book) :
    (A.after call).main = A.main ∧ (A.after call).chains = A.chains := by
  cases call with
  | saveFork b | deleteBlock hash | pruneOrphans chain height removed => exact ⟨rfl, rfl⟩
  | connectTip b | connectTail b | rollBack b | expire b => exact h.elim

namespace Repository.Keeps

theorem sameBestChains (hA : A.Sound K) (hr : r.Keeps A) (hB : B.Sound K) (hs : s.Keeps B)
    (hm : B.main = A.main) (hchains : B.chains = A.chains) : r.SameBestChains s where
  tip c := hr.value_onMain hs (congrFun hm c) rfl
  tail c := hr.value_onMain hs (congrFun hm c) rfl
  span c pk := hr.value_onMain hs (congrFun hm c) rfl
  links x := hr.value_links hs hm x
  chains := by rw [hs.chains, hr.chains, hchains]
  mainHashAt c n := by rw [hs.mainHashAt_eq hB, hr.mainHashAt_eq hA, Book.mainAt, hm, Book.mainAt]
  block c n x hx := by
    obtain ⟨b, hb, -, rfl⟩ := (hr.mainHashAt_eq_some_iff hA).1 hx
    exact hr.value_block_of_known hA hB hs (hA.known c b hb)
      (iff_of_true (hB.holds_of_mem (hm ▸ hb)) (hA.holds_of_mem hb))
  account c pk := (hr.agree hA hB hs (congrFun hm c)).account pk
  effectivePower c pk := (hr.agree hA hB hs (congrFun hm c)).effectivePower pk

end Repository.Keeps

/-- After any history, a call about forks leaves the best chains as they were,
whether it succeeds or fails. -/
theorem ChainCall.run_spares_best {calls : List ChainCall} {call : ChainCall}
    (h : Admissible ((calls ++ [call]).filterMap block?)) (hcall : call.OnForks) :
    (run calls).SameBestChains (call.perform (run calls)) := by
  have hknown : ∀ c ∈ calls ++ [call], ∀ b, c.block? = some b → h.registry.known b.stored :=
    fun c hc b hb => ⟨b, List.mem_filterMap.2 ⟨c, hc, hb⟩, rfl⟩
  obtain ⟨hA, hr⟩ := run_keeps calls fun c hc => hknown c (List.mem_append_left _ hc)
  obtain ⟨hB, hs⟩ := perform_keeps hA hr call (hknown call (by simp))
  obtain ⟨hmain, hchains⟩ := hcall.after_eq (book calls)
  exact hr.sameBestChains hA hB hs hmain hchains

end

section

attribute [local instance] checksum

/-- The tip is to be stored as a fork, and to be pruned as the child of a block
that is said to be removed. -/
theorem ChainCall.run_spares_best_pair :
    (Admissible ((pairCalls ++ [saveFork secondBlock]).filterMap block?) ∧
      OnForks (saveFork secondBlock) ∧
      (run pairCalls).SameBestChains (perform (run pairCalls) (saveFork secondBlock))) ∧
    (Admissible ((pairCalls ++ [pruneOrphans [0x61] secondBlock.height [firstBlock.hash]]).filterMap
        block?) ∧
      OnForks (pruneOrphans [0x61] secondBlock.height [firstBlock.hash]) ∧
      (run pairCalls).SameBestChains (perform (run pairCalls)
        (pruneOrphans [0x61] secondBlock.height [firstBlock.hash]))) := by
  have hsave : Admissible ((pairCalls ++ [saveFork secondBlock]).filterMap block?) :=
    admissible_pair.mono (by simp [pairCalls, block?])
  have hprune : Admissible ((pairCalls ++
      [pruneOrphans [0x61] secondBlock.height [firstBlock.hash]]).filterMap block?) :=
    admissible_pair.mono (by simp [pairCalls, block?])
  exact ⟨⟨hsave, trivial, run_spares_best hsave trivial⟩,
    ⟨hprune, trivial, run_spares_best hprune trivial⟩⟩

end

end ChainState
