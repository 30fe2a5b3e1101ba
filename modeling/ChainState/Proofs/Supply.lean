import ChainState.Proofs.Balances
import ChainState.Proofs.Requests
import ChainState.Proofs.Transfers

/-!
# The supply of a chain

What the block that opens a chain gives its miner is all that there will ever
be on the chain. Transfers move it about, and nobody comes to owe anything.
-/

set_option autoImplicit false

namespace ChainState

namespace Tally

def Solvent (m : Tally) : Prop := ∀ pk, 0 ≤ (m pk).balance

def total (m : Tally) (keys : Finset PublicKey) : Int := ∑ pk ∈ keys, (m pk).balance

variable {m : Tally} {keys : Finset PublicKey}

theorem total_spend {sender : PublicKey} (h : sender ∈ keys) (needed : Int) :
    (m.spend sender needed).total keys = m.total keys - needed := by
  simp only [total, balance_spend, Finset.sum_sub_distrib]
  simp [h]

theorem total_credit {receiver : PublicKey} (h : receiver ∈ keys) (amount : Int) :
    (m.credit receiver amount).total keys = m.total keys + amount := by
  simp only [total, balance_credit, Finset.sum_add_distrib]
  simp [h]

theorem total_transfer {miner : PublicKey} {t : Transaction} (hminer : miner ∈ keys)
    (hsender : t.sender ∈ keys) (hreceiver : t.receiver ∈ keys) :
    (m.transfer miner t).total keys = m.total keys := by
  rw [transfer, total_credit hminer, total_credit hreceiver, total_spend hsender]
  omega

theorem Solvent.le_total (h : m.Solvent) {pk : PublicKey} (hpk : pk ∈ keys) :
    (m pk).balance ≤ m.total keys :=
  Finset.single_le_sum (f := fun pk => (m pk).balance) (fun x _ => h x) hpk

theorem Solvent.total_mono (h : m.Solvent) {more : Finset PublicKey} (hkeys : keys ⊆ more) :
    m.total keys ≤ m.total more :=
  Finset.sum_le_sum_of_subset_of_nonneg hkeys fun pk _ _ => h pk

theorem Solvent.spend (h : m.Solvent) {sender : PublicKey} {needed : Int}
    (hneeded : needed ≤ (m sender).balance) : (m.spend sender needed).Solvent := by
  intro pk
  have hpk := h pk
  rw [balance_spend]
  split
  · next e =>
    subst e
    omega
  · omega

theorem Solvent.credit (h : m.Solvent) {amount : Int} (hamount : 0 ≤ amount)
    (receiver : PublicKey) : (m.credit receiver amount).Solvent := by
  intro pk
  have hpk := h pk
  rw [balance_credit]
  split <;> omega

theorem Solvent.transfer (h : m.Solvent) {t : Transaction} (ht : m.Covers t)
    (miner : PublicKey) : (m.transfer miner t).Solvent :=
  ((h.spend ht.balance).credit ht.amount _).credit ht.fee _

section

variable [Crypto]

theorem total_play {b : Block} (h : ∀ pk ∈ b.affected, pk ∈ keys) :
    (m.play b).total keys = m.total keys := by
  unfold play
  split
  · next ht =>
    apply total_transfer
    · exact h _ (Block.mem_affected.2 (.inl rfl))
    · exact h _ (Block.mem_affected.2 (.inr ⟨ht, .inl rfl⟩))
    · exact h _ (Block.mem_affected.2 (.inr ⟨ht, .inr rfl⟩))
  · rfl

theorem total_opening {b : Block} (h : b.miner ∈ keys) :
    (opening b).total keys = b.states.miner.balance.toInt := by
  have hentry : ∀ pk, (opening b pk).balance =
      if pk = b.miner then b.states.miner.balance.toInt else 0 := by
    intro pk
    unfold opening
    split <;> rfl
  simp [total, hentry, h]

/-- The keys that a chain names hold together what its first block gave. -/
theorem total_replay {main : List Block} {first : Block} (hfirst : first ∈ main.head?)
    (h : ∀ b ∈ main, ∀ pk ∈ b.affected, pk ∈ keys) :
    (replay main).total keys = first.states.miner.balance.toInt := by
  induction main using List.reverseRecOn with
  | nil => cases hfirst
  | append_singleton lo b ih =>
    rcases eq_or_ne lo [] with rfl | hne
    · obtain rfl : b = first := by simpa using hfirst
      apply total_opening
      exact h b (by simp) _ (Block.mem_affected.2 (.inl rfl))
    · rw [replay_concat hne, total_play (h b (by simp))]
      apply ih
      · rwa [List.head?_append_of_ne_nil _ hne] at hfirst
      · exact fun x hx => h x (List.mem_append_left _ hx)

end

end Tally

section

variable [Crypto]

def keysOn (main : List Block) : Finset PublicKey := (main.flatMap (·.affected)).toFinset

theorem mem_keysOn {main : List Block} {pk : PublicKey} :
    pk ∈ keysOn main ↔ ∃ b ∈ main, pk ∈ b.affected := by
  simp [keysOn]

/-- Transfers on the chain are covered, and its first block gives what it
gives without debt. -/
structure Funded (main : List Block) : Prop extends Covered main where
  backed : ∀ first ∈ main.head?, 0 ≤ first.states.miner.balance.toInt

namespace Funded

variable {main lo hi : List Block} {b : Block}

theorem left (h : Funded (lo ++ hi)) : Funded lo where
  toCovered := h.toCovered.left
  backed first hfirst := h.backed first (List.mem_head?_append_of_mem_head? hfirst)

theorem solvent (h : Funded main) : (Tally.replay main).Solvent := by
  induction main using List.reverseRecOn with
  | nil => exact fun pk => le_rfl
  | append_singleton lo b ih =>
    rcases eq_or_ne lo [] with rfl | hne
    · intro pk
      show 0 ≤ (Tally.opening b pk).balance
      unfold Tally.opening
      split
      · exact h.backed b rfl
      · exact le_rfl
    · have hbelow := ih h.left
      rw [Tally.replay_concat hne, Tally.play]
      split
      · next ht => exact hbelow.transfer (h.covers lo b [] rfl hne ht) b.miner
      · exact hbelow

theorem total_lt (h : Funded main) (keys : Finset PublicKey) :
    (Tally.replay main).total keys < 2 ^ 63 := by
  cases hfirst : main.head? with
  | none =>
    obtain rfl := List.head?_eq_none_iff.1 hfirst
    simp [Tally.total, Tally.replay, Tally.zero]
  | some first =>
    have hkeys : ∀ b ∈ main, ∀ pk ∈ b.affected, pk ∈ keys ∪ keysOn main := fun b hb pk hpk =>
      Finset.mem_union_right keys (mem_keysOn.2 ⟨b, hb, hpk⟩)
    have hsub : keys ⊆ keys ∪ keysOn main := Finset.subset_union_left
    have hsupply := Tally.total_replay hfirst hkeys
    have hmono := h.solvent.total_mono hsub
    have hword := Int64.toInt_lt first.states.miner.balance
    omega

end Funded

theorem law_funded : Law Funded where
  nil := ⟨.nil, by simp⟩
  left _ _ h := h.left
  begins main h := law_covered.begins main h.toCovered
  opens b h := by
    have hbalance := Int64.le_iff_toInt_le.1 (validateGenesis_eq_ok.1 h).balance
    exact ⟨law_covered.opens b h, by simpa using hbalance⟩
  joins {_ A _ b} hA hr h ha := by
    obtain ⟨parent, hparent, -⟩ := h.fits hA hr
    have hne : A.main b.chain ≠ [] := List.ne_nil_of_mem (List.mem_of_getLast? hparent)
    refine ⟨law_covered.joins hA hr h ha.toCovered, ?_⟩
    rw [List.head?_append_of_ne_nil _ hne]
    exact ha.backed

theorem NodeCall.funded_of_admissible {calls : List NodeCall}
    (h : Admissible (blocksFrom .empty calls)) (hoffered : ∀ call ∈ calls, call.Offered) :
    ∃ K, Accounted Funded K (run calls) := by
  apply accounted_of_law law_funded h
  intro call hcall
  cases call with
  | openChain miner timestamp balance =>
    have hbalance : 0 ≤ (miner.genesis timestamp balance).states.miner.balance.toInt :=
      Int64.le_iff_toInt_le.1 (hoffered _ hcall)
    exact ⟨.opening (miner.audited_genesis timestamp balance), by simpa using hbalance⟩
  | _ => trivial

/-- After any history that the interface lets through, no account is in debt,
and the accounts of a best chain hold together what its first block gave. -/
theorem NodeCall.run_supply {calls : List NodeCall} (h : Admissible (blocksFrom .empty calls))
    (hoffered : ∀ call ∈ calls, call.Offered) (chain : Bytes) :
    ∃ main, Spine (run calls) chain main ∧ (∀ first ∈ main.head?, first.isGenesis = true) ∧
      ∃ (accounts : PublicKey → Account) (holders : Finset PublicKey),
        (∀ pk, (run calls).account chain pk = .ok (accounts pk)) ∧
        (∀ pk, (run calls).hasAccount chain pk = .ok (decide (pk ∈ holders))) ∧
        (∀ pk, 0 ≤ (accounts pk).balance) ∧
        ∀ first ∈ main.head?,
          ∑ pk ∈ holders, (accounts pk).balance.toInt = first.states.miner.balance.toInt := by
  obtain ⟨K, A, hA, hr, hfunded⟩ := funded_of_admissible h hoffered
  have hmain := hfunded chain
  refine ⟨A.main chain, hr.spine hA chain, fun g hg => (hmain.opens g hg).1,
    accountOn (A.main chain), keysOn (A.main chain), hr.account_eq hA chain, ?_, ?_, ?_⟩
  · intro pk
    rw [hr.hasAccount_eq chain pk]
    simp [mem_keysOn, List.any_eq]
  · intro pk
    apply Int64.le_iff_toInt_le.2
    rw [hmain.balance_accountOn]
    exact hmain.solvent pk
  · intro first hfirst
    simp only [hmain.balance_accountOn]
    exact Tally.total_replay hfirst fun b hb pk hpk => mem_keysOn.2 ⟨b, hb, hpk⟩

end

section

attribute [local instance] checksum

/-- The founder and the receiver hold together what the opening gave. -/
theorem NodeCall.run_supply_paid : Admissible (blocksFrom .empty paidCalls) ∧
    (∀ call ∈ paidCalls, call.Offered) ∧ Spine (run paidCalls) [0x61] [opening, payment] ∧
    ∃ (accounts : PublicKey → Account) (holders : Finset PublicKey),
      (∀ pk, (run paidCalls).account [0x61] pk = .ok (accounts pk)) ∧
      (∀ pk, (run paidCalls).hasAccount [0x61] pk = .ok (decide (pk ∈ holders))) ∧
      (∀ pk, 0 ≤ (accounts pk).balance) ∧
      founder.key ∈ holders ∧ payment.transaction.receiver ∈ holders ∧
      ∑ pk ∈ holders, (accounts pk).balance.toInt = 1000 := by
  have hoffered : ∀ call ∈ paidCalls, call.Offered := by decide
  have hpayer : (run paidCalls).hasAccount [0x61] founder.key = .ok true := by
    rw [keeps_paid.2.hasAccount_eq, main_paidBook]
    decide +kernel
  have hpayee : (run paidCalls).hasAccount [0x61] payment.transaction.receiver = .ok true := by
    rw [keeps_paid.2.hasAccount_eq, main_paidBook]
    decide +kernel
  obtain ⟨main, hspine, -, accounts, holders, haccounts, hholders, hsolvent, hsum⟩ :=
    run_supply admissible_paidCalls hoffered [0x61]
  obtain rfl := spine_paidCalls.unique hspine
  rw [hholders] at hpayer hpayee
  exact ⟨admissible_paidCalls, hoffered, hspine, accounts, holders, haccounts, hholders, hsolvent,
    of_decide_eq_true (Except.ok.inj hpayer), of_decide_eq_true (Except.ok.inj hpayee),
    hsum opening rfl⟩

end

end ChainState
