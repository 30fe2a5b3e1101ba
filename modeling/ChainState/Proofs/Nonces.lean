import ChainState.Proofs.Balances
import ChainState.Proofs.Transfers

/-!
# Nonces along a best chain

Read from the block that opened the chain to the tip, the transfers of a
sender are numbered without gaps, beginning with the nonce that the sender had
at the opening. So no transfer occurs on a best chain twice.
-/

set_option autoImplicit false

namespace ChainState

section

variable [Crypto]

/-- The transfers of a chain, from its first block to its tip. -/
def transfersOn (main : List Block) : List Transaction :=
  (main.map (·.transaction)).filter (·.isTransfer)

/-- The nonce of a key once the first block has opened the chain. -/
def openingNonce (main : List Block) (pk : PublicKey) : Int :=
  (Tally.replay (main.take 1) pk).nonce

def sentBy (pk : PublicKey) (main : List Block) : List Transaction :=
  (transfersOn main).filter (·.sender = pk)

theorem transfersOn_concat (main : List Block) (b : Block) :
    transfersOn (main ++ [b]) =
      transfersOn main ++ if b.transaction.isTransfer then [b.transaction] else [] := by
  rw [transfersOn, List.map_append, List.filter_append, ← transfersOn]
  split
  · next ht => simp [ht]
  · next ht => simp [ht]

theorem sentBy_concat (pk : PublicKey) (main : List Block) (b : Block) :
    sentBy pk (main ++ [b]) = sentBy pk main ++
      if b.transaction.isTransfer ∧ b.transaction.sender = pk then [b.transaction] else [] := by
  rw [sentBy, transfersOn_concat, List.filter_append, ← sentBy]
  by_cases ht : b.transaction.isTransfer = true <;>
    by_cases hs : b.transaction.sender = pk <;> simp [ht, hs]

namespace Tally

theorem nonce_play (m : Tally) (b : Block) (pk : PublicKey) : (m.play b pk).nonce =
    (m pk).nonce + if b.transaction.isTransfer ∧ b.transaction.sender = pk then 1 else 0 := by
  unfold play
  split
  · next ht => simp [transfer, nonce_credit, nonce_spend, ht, eq_comm]
  · next ht => simp [ht]

end Tally

namespace Covered

variable {main : List Block}

/-- The transfers of a sender are numbered from the nonce at the opening, and
the nonce that comes next is the one that the tally holds. -/
theorem nonces_sentBy (h : Covered main) (pk : PublicKey) :
    (sentBy pk main).map (·.nonce.toInt) = (List.range (sentBy pk main).length).map
        (fun (i : Nat) => openingNonce main pk + (i : Int)) ∧
      (Tally.replay main pk).nonce = openingNonce main pk + (sentBy pk main).length := by
  induction main using List.reverseRecOn with
  | nil => simp [sentBy, transfersOn, openingNonce]
  | append_singleton lo b ih =>
    rcases eq_or_ne lo [] with rfl | hne
    · have ht := (h.opens b rfl).2
      simp [sentBy, transfersOn, openingNonce, ht]
    · obtain ⟨hnonces, hnext⟩ := ih h.left
      have hopening : openingNonce (lo ++ [b]) pk = openingNonce lo pk := by
        have hpos := List.length_pos_of_ne_nil hne
        rw [openingNonce, List.take_append_of_le_length hpos, ← openingNonce]
      rw [hopening, Tally.replay_concat hne, Tally.nonce_play, sentBy_concat]
      split
      · next hsent =>
        obtain ⟨ht, rfl⟩ := hsent
        have hnonce := (h.covers lo b [] rfl hne ht).nonce
        rw [hnext] at hnonce
        constructor
        · simp [List.range_succ, hnonces, hnonce]
        · rw [hnext]
          simp
          omega
      · simp [hnonces, hnext]

theorem nonce_lt_of_mem (h : Covered main) {t : Transaction} (ht : t ∈ transfersOn main) :
    t.nonce.toInt < (Tally.replay main t.sender).nonce := by
  obtain ⟨hnonces, hnext⟩ := h.nonces_sentBy t.sender
  have hmem : t.nonce.toInt ∈ (sentBy t.sender main).map (·.nonce.toInt) :=
    List.mem_map_of_mem (List.mem_filter.2 ⟨ht, by simp⟩)
  rw [hnonces] at hmem
  obtain ⟨i, hi, he⟩ := List.mem_map.1 hmem
  have hlt := List.mem_range.1 hi
  omega

theorem nodup_transfersOn (h : Covered main) :
    ((transfersOn main).map fun t => (t.sender, t.nonce)).Nodup := by
  induction main using List.reverseRecOn with
  | nil => simp [transfersOn]
  | append_singleton lo b ih =>
    have hbelow := ih h.left
    rw [transfersOn_concat, List.map_append]
    split
    · next ht =>
      rw [List.map_singleton, ← List.concat_eq_append, List.nodup_concat]
      refine ⟨?_, hbelow⟩
      intro hmem
      obtain ⟨t, hold, he⟩ := List.mem_map.1 hmem
      obtain ⟨hsender, hnonce⟩ := Prod.mk.inj he
      have hne : lo ≠ [] := by
        rintro rfl
        simp [transfersOn] at hold
      have hlt := h.left.nonce_lt_of_mem hold
      have hat := (h.covers lo b [] rfl hne ht).nonce
      rw [hsender, hnonce] at hlt
      omega
    · simpa using hbelow

end Covered

/-- After any history, the transfers of every sender along a best chain have
consecutive nonces, from the one at the opening up to that of the account, and
none occurs twice. -/
theorem NodeCall.run_nonces {calls : List NodeCall}
    (h : Admissible (blocksFrom .empty calls)) (chain : Bytes) :
    ∃ main, Spine (run calls) chain main ∧ (∀ first ∈ main.head?, first.isGenesis = true) ∧
      (transfersOn main).Nodup ∧ ((transfersOn main).map fun t => (t.sender, t.nonce)).Nodup ∧
      ∀ pk, ∃ account, (run calls).account chain pk = .ok account ∧
        (sentBy pk main).map (·.nonce.toInt) = (List.range (sentBy pk main).length).map
          (fun (i : Nat) => openingNonce main pk + (i : Int)) ∧
        account.nonce.toInt = openingNonce main pk + (sentBy pk main).length := by
  obtain ⟨K, A, hA, hr, hcovered⟩ := covered_of_admissible h
  have hmain := hcovered chain
  have hnodup := hmain.nodup_transfersOn
  refine ⟨A.main chain, hr.spine hA chain, fun g hg => (hmain.opens g hg).1, hnodup.of_map _,
    hnodup, fun pk => ?_⟩
  obtain ⟨hnonces, hnext⟩ := hmain.nonces_sentBy pk
  refine ⟨accountOn (A.main chain) pk, hr.account_eq hA chain pk, hnonces, ?_⟩
  rw [hmain.nonce_accountOn, hnext]

end

section

attribute [local instance] checksum

/-- The founder has sent the payment, with the nonce of the opening. -/
theorem NodeCall.run_nonces_paid : Admissible (blocksFrom .empty paidCalls) ∧
    Spine (run paidCalls) [0x61] [opening, payment] ∧
    sentBy founder.key [opening, payment] = [payment.transaction] ∧
    payment.transaction.nonce.toInt = openingNonce [opening, payment] founder.key ∧
    ∃ account, (run paidCalls).account [0x61] founder.key = .ok account ∧
      account.nonce.toInt = openingNonce [opening, payment] founder.key + 1 := by
  have hsent : sentBy founder.key [opening, payment] = [payment.transaction] := by decide +kernel
  obtain ⟨main, hspine, -, -, -, hnonces⟩ := run_nonces admissible_paidCalls [0x61]
  obtain rfl := spine_paidCalls.unique hspine
  obtain ⟨account, haccount, hconsecutive, hnext⟩ := hnonces founder.key
  rw [hsent] at hconsecutive hnext
  exact ⟨admissible_paidCalls, hspine, hsent, by simpa using hconsecutive, account, haccount, hnext⟩

end

end ChainState
