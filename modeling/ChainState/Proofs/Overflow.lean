import ChainState.Proofs.Supply

/-!
# Where the arithmetic of a transfer overflows

No balance leaves its range, as nobody comes to hold more than the supply of
the chain. A nonce does: the block that opens a chain may give its miner the
largest nonce there is, and then the next transfer of that miner cannot be
counted.
-/

set_option autoImplicit false

namespace ChainState

namespace Tally

def among (m : Tally) (keys : Finset PublicKey) : Tally :=
  fun pk => if pk ∈ keys then m pk else zero pk

variable {m : Tally} {keys : Finset PublicKey}

theorem total_among (m : Tally) (keys : Finset PublicKey) :
    (m.among keys).total keys = m.total keys := by
  apply Finset.sum_congr rfl
  intro pk hpk
  rw [among, if_pos hpk]

theorem Solvent.among (h : m.Solvent) (keys : Finset PublicKey) : (m.among keys).Solvent := by
  intro pk
  unfold Tally.among
  split
  · exact h pk
  · exact le_rfl

end Tally

namespace Ledger

variable {l : Ledger} {keys : Finset PublicKey} {miner sender : PublicKey} {needed : Int64}
  {t : Transaction}

theorem sub_balance_eq_ok (hneeded : 0 ≤ needed.toInt)
    (hbalance : needed.toInt ≤ (l sender).balance.toInt) :
    ∃ left, Checked.sub (l sender).balance needed = .ok left := by
  have hheld := Int64.toInt_lt (l sender).balance
  apply Checked.sub_eq_ok <;> omega

theorem spend_eq_ok (hneeded : 0 ≤ needed.toInt)
    (hbalance : needed.toInt ≤ (l sender).balance.toInt)
    (hnonce : (l sender).nonce ≠ Int64.maxValue) : ∃ l', l.spend sender needed = .ok l' := by
  have hmax := Int64.toInt_maxValue
  have hlow := Int64.le_toInt (l sender).nonce
  have hhigh := Int64.toInt_lt (l sender).nonce
  have hone : (1 : Int64).toInt = 1 := by decide
  have hne : (l sender).nonce.toInt ≠ Int64.maxValue.toInt := fun e => hnonce (Int64.toInt_inj.1 e)
  obtain ⟨left, hleft⟩ := sub_balance_eq_ok hneeded hbalance
  obtain ⟨nonce, hcount⟩ := Checked.add_eq_ok (a := (l sender).nonce) (b := 1)
    (by omega) (by omega)
  exact ⟨_, by rw [spend, hleft, hcount]; rfl⟩

theorem spend_eq_error (hneeded : 0 ≤ needed.toInt)
    (hbalance : needed.toInt ≤ (l sender).balance.toInt)
    (hnonce : (l sender).nonce = Int64.maxValue) : l.spend sender needed = .error .addition := by
  obtain ⟨left, hleft⟩ := sub_balance_eq_ok hneeded hbalance
  have hcount : Checked.add (l sender).nonce 1 = .error .addition := by
    apply Checked.add_eq_error
    rw [hnonce]
    decide
  rw [spend, hleft, hcount]
  rfl

theorem credit_eq_ok (hs : l.tally.Solvent) {pk : PublicKey} (hpk : pk ∈ keys) {amount : Int64}
    (hamount : 0 ≤ amount.toInt) (hcap : l.tally.total keys + amount.toInt < 2 ^ 63) :
    ∃ l', l.credit pk amount = .ok l' := by
  have hheld : 0 ≤ (l pk).balance.toInt := hs pk
  have hshare : (l pk).balance.toInt ≤ l.tally.total keys := hs.le_total hpk
  obtain ⟨balance, hbalance⟩ := Checked.add_eq_ok (a := (l pk).balance) (b := amount)
    (by omega) (by omega)
  exact ⟨_, by rw [credit, hbalance]; rfl⟩

theorem transfer_eq_ok (hs : l.tally.Solvent) (ht : l.tally.Covers t)
    (hsender : t.sender ∈ keys) (hreceiver : t.receiver ∈ keys) (hminer : miner ∈ keys)
    (hcap : l.tally.total keys < 2 ^ 63)
    (hneeded : needed.toInt = t.amount.toInt + t.fee.toInt)
    (hnonce : (l t.sender).nonce ≠ Int64.maxValue) :
    ∃ l', l.transfer miner t needed = .ok l' := by
  have hamount := ht.amount
  have hfee := ht.fee
  have hbalance : needed.toInt ≤ (l t.sender).balance.toInt := hneeded ▸ ht.balance
  obtain ⟨spent, hspent⟩ := spend_eq_ok (by omega) hbalance hnonce
  have htally := tally_spend hspent
  have hsolvent : spent.tally.Solvent := htally ▸ hs.spend hbalance
  have htotal : spent.tally.total keys = l.tally.total keys - needed.toInt := by
    rw [htally, Tally.total_spend hsender]
  obtain ⟨paid, hpaid⟩ := credit_eq_ok hsolvent hreceiver hamount (by omega)
  have htally' := tally_credit hpaid
  have hsolvent' : paid.tally.Solvent := htally' ▸ hsolvent.credit hamount _
  have htotal' : paid.tally.total keys = spent.tally.total keys + t.amount.toInt := by
    rw [htally', Tally.total_credit hreceiver]
  obtain ⟨after, hafter⟩ := credit_eq_ok hsolvent' hminer hfee (by omega)
  exact ⟨after, by rw [transfer, hspent]; simp only [bind, Except.bind, hpaid, hafter]⟩

theorem transfer_eq_error (ht : l.tally.Covers t)
    (hneeded : needed.toInt = t.amount.toInt + t.fee.toInt)
    (hnonce : (l t.sender).nonce = Int64.maxValue) :
    l.transfer miner t needed = .error .addition := by
  have hamount := ht.amount
  have hfee := ht.fee
  rw [transfer, spend_eq_error (by omega) (hneeded ▸ ht.balance) hnonce]
  rfl

end Ledger

section

variable [Crypto] {r : Repository} {m : Tally} {t : Transaction} {miner : PublicKey}

open Check

theorem ledgerBefore_eq_ok (hm : ∀ pk, ∃ a, r.account t.chain pk = .ok a ∧ a.entry = m pk)
    (miner : PublicKey) : ∃ l, ledgerBefore r miner t = .ok l ∧
      l.tally = m.among {miner, t.sender, t.receiver} := by
  obtain ⟨a, ha, hminer⟩ := hm miner
  obtain ⟨b, hb, hsender⟩ := hm t.sender
  obtain ⟨c, hc, hreceiver⟩ := hm t.receiver
  refine ⟨_, by simp only [ledgerBefore, holdingOf, ha, hb, hc]; rfl, ?_⟩
  funext pk
  simp only [Ledger.tally, Tally.among, Finset.mem_insert, Finset.mem_singleton]
  split
  · next e =>
    rw [e, if_pos (.inl rfl)]
    exact hminer
  · split
    · next e =>
      rw [e, if_pos (.inr (.inl rfl))]
      exact hsender
    · split
      · next e =>
        rw [e, if_pos (.inr (.inr rfl))]
        exact hreceiver
      · next h₁ h₂ h₃ =>
        rw [if_neg (by simp [h₁, h₂, h₃])]
        rfl

theorem postStates_eq_overflow {l : Ledger} (hl : ledgerBefore r miner t = .ok l)
    {cause : Overflow} : postStates r miner t = .error (.overflow cause) ↔
      t.isTransfer = true ∧ t.nonce = (l t.sender).nonce ∧
        ∃ needed, Checked.add? t.amount t.fee = some needed ∧ needed ≤ (l t.sender).balance ∧
          l.transfer miner t needed = .error cause := by
  by_cases ht : t.isTransfer = true
  · simp [postStates, statesAfter, hl, ht, bind_eq_error, require_eq_error, require_eq_ok,
      ofOption_eq_error, ofOption_eq_ok, ofChecked_eq_error, pure_ne_error, -bind_pure_comp]
  · simp [postStates, statesAfter, hl, ht]

/-- Among solvent accounts whose total is in range, only the count of a covered
transfer overflows. -/
theorem postStates_overflow_iff (hm : ∀ pk, ∃ a, r.account t.chain pk = .ok a ∧ a.entry = m pk)
    (hs : m.Solvent) (hcap : ∀ keys, m.total keys < 2 ^ 63) {chain : Bytes}
    (hvalid : validateTransaction t chain = .ok ()) {cause : Overflow} :
    postStates r miner t = .error (.overflow cause) ↔
      cause = .addition ∧ t.isTransfer = true ∧ m.Covers t ∧ t.nonce = Int64.maxValue := by
  obtain ⟨l, hl, htally⟩ := ledgerBefore_eq_ok hm miner
  have hsender : l.tally t.sender = m t.sender := by
    rw [htally]
    simp [Tally.among]
  have hsolvent : l.tally.Solvent := htally ▸ hs.among _
  have htotal : l.tally.total {miner, t.sender, t.receiver} < 2 ^ 63 := by
    rw [htally, Tally.total_among]
    exact hcap _
  rw [postStates_eq_overflow hl]
  constructor
  · rintro ⟨ht, hnonce, needed, hneeded, hbalance, hover⟩
    obtain ⟨hamount, hfee⟩ := nonneg_of_validateTransaction hvalid ht
    have hsum := Checked.toInt_add? hneeded
    have hcovers : l.tally.Covers t :=
      { amount := hamount
        fee := hfee
        nonce := congrArg Int64.toInt hnonce
        balance := hsum ▸ Int64.le_iff_toInt_le.1 hbalance }
    by_cases hmax : (l t.sender).nonce = Int64.maxValue
    · rw [Ledger.transfer_eq_error hcovers hsum hmax] at hover
      cases hover
      exact ⟨rfl, ht, hcovers.congr hsender, hnonce.trans hmax⟩
    · obtain ⟨after, hafter⟩ : ∃ l', l.transfer miner t needed = .ok l' :=
        Ledger.transfer_eq_ok hsolvent hcovers (by simp) (by simp) (by simp) htotal hsum hmax
      rw [hafter] at hover
      cases hover
  · rintro ⟨rfl, ht, hcovers, hmax⟩
    have hcovers := hcovers.congr hsender.symm
    have hnonce : t.nonce = (l t.sender).nonce := Int64.toInt_inj.1 hcovers.nonce
    have hamount := hcovers.amount
    have hfee := hcovers.fee
    have hbalance : t.amount.toInt + t.fee.toInt ≤ (l t.sender).balance.toInt := hcovers.balance
    have hword := Int64.toInt_lt (l t.sender).balance
    have hneeded : Checked.add? t.amount t.fee =
        some (Int64.ofInt (t.amount.toInt + t.fee.toInt)) :=
      Checked.ofInt?_eq_some (by omega) (by omega)
    have hsum := Checked.toInt_add? hneeded
    refine ⟨ht, hnonce, _, hneeded, ?_, ?_⟩
    · rw [Int64.le_iff_toInt_le, hsum]
      exact hbalance
    · exact Ledger.transfer_eq_error hcovers hsum (hnonce ▸ hmax)

theorem Funded.postStates_overflow_iff {K : Registry} {A : Book} (hA : A.Sound K) (hr : r.Keeps A)
    (hf : Funded (A.main t.chain)) {chain : Bytes} (hvalid : validateTransaction t chain = .ok ())
    {cause : Overflow} : postStates r miner t = .error (.overflow cause) ↔
      cause = .addition ∧ t.isTransfer = true ∧
        (Tally.replay (A.main t.chain)).Covers t ∧ t.nonce = Int64.maxValue := by
  apply ChainState.postStates_overflow_iff ?_ hf.solvent hf.total_lt hvalid
  intro pk
  exact ⟨_, hr.account_eq hA t.chain pk, hf.entry_accountOn pk⟩

/-- After any history that the interface lets through, the states that a valid
transaction leads to overflow only where a transfer has the largest nonce and
nothing else is wrong with it. -/
theorem NodeCall.run_overflow_iff {calls : List NodeCall} (h : Admissible (blocksFrom .empty calls))
    (hoffered : ∀ call ∈ calls, call.Offered) {chain : Bytes} {t : Transaction}
    (hvalid : validateTransaction t chain = .ok ()) (miner : PublicKey) :
    ∃ sender, (run calls).account chain t.sender = .ok sender ∧
      ((∃ cause, postStates (run calls) miner t = .error (.overflow cause)) ↔
        t.isTransfer = true ∧ t.nonce = Int64.maxValue ∧ t.nonce = sender.nonce ∧
          t.amount.toInt + t.fee.toInt ≤ sender.balance.toInt) := by
  obtain ⟨K, A, hA, hr, hfunded⟩ := funded_of_admissible h hoffered
  have hmain := hfunded t.chain
  have hentry := hmain.entry_accountOn t.sender
  obtain rfl := chain_of_validateTransaction hvalid
  refine ⟨_, hr.account_eq hA t.chain t.sender, ?_⟩
  simp only [hmain.postStates_overflow_iff hA hr hvalid]
  constructor
  · rintro ⟨cause, -, ht, hcovers, hmax⟩
    exact ⟨ht, hmax, (Tally.covers_iff hentry hcovers.amount hcovers.fee).1 hcovers⟩
  · rintro ⟨ht, hmax, hcovers⟩
    obtain ⟨hamount, hfee⟩ := nonneg_of_validateTransaction hvalid ht
    exact ⟨.addition, rfl, ht, (Tally.covers_iff hentry hamount hfee).2 hcovers, hmax⟩

end

section

attribute [local instance] checksum

/-- The payment, with a small nonce, does not overflow once more. -/
theorem NodeCall.run_overflow_iff_paid : Admissible (blocksFrom .empty paidCalls) ∧
    (∀ call ∈ paidCalls, call.Offered) ∧
    validateTransaction payment.transaction [0x61] = .ok () ∧
    ∀ cause, postStates (run paidCalls) founder.key payment.transaction ≠
      .error (.overflow cause) := by
  have hoffered : ∀ call ∈ paidCalls, call.Offered := by decide
  have hvalid : validateTransaction payment.transaction [0x61] = .ok () := by decide +kernel
  obtain ⟨sender, -, hiff⟩ := run_overflow_iff admissible_paidCalls hoffered hvalid founder.key
  refine ⟨admissible_paidCalls, hoffered, hvalid, fun cause hoverflow => ?_⟩
  obtain ⟨-, hmax, -⟩ := hiff.1 ⟨cause, hoverflow⟩
  exact absurd hmax (by decide)

def brink : Block :=
  let states := { PostStates.zero with miner := ⟨1000, Int64.maxValue⟩ }
  Block.sign (.hashed { opening.toContent with states }) founder.seed

def lastPayment : Transaction :=
  (Transaction.transfer [0x61] 600 founder.key (.ofBytes (List.replicate 32 2)) Int64.maxValue 1
    100 []).sign founder.seed

theorem admissible_brink : Admissible (NodeCall.blocksFrom .empty [.submit brink]) := by
  have hblocks : NodeCall.blocksFrom .empty [.submit brink] = [brink] := rfl
  rw [hblocks]
  decide +kernel

/-- A chain that opens with the largest nonce cannot count the first transfer
of its miner. -/
theorem NodeCall.run_overflows_brink : Admissible (blocksFrom .empty [.submit brink]) ∧
    (∀ call ∈ [NodeCall.submit brink], call.Offered) ∧
    validateTransaction lastPayment [0x61] = .ok () ∧
    postStates (run [.submit brink]) founder.key lastPayment = .error (.overflow .addition) := by
  have hvalid : validateTransaction lastPayment [0x61] = .ok () := by decide +kernel
  have hgenesis : validateGenesis brink = .ok () := by decide +kernel
  have hknown : admissible_brink.registry.known brink.stored :=
    ⟨brink, by simp [blocksFrom, blocks], rfl⟩
  have hsound := Book.sound_empty admissible_brink.registry
  have hkeeps : (run [.submit brink]).Keeps (Book.empty.pushTip brink.stored) :=
    ((ends_submit_opening hsound Repository.keeps_empty rfl hgenesis hknown rfl).mono
      fun _ _ hs => hs.2.2).snd
  have hsound' := Book.sound_pushTip hsound hknown (by simp [Book.TakesTip, Book.empty])
  have hmain : (Book.empty.pushTip brink.stored).main lastPayment.chain = [brink.stored] := by
    decide +kernel
  refine ⟨admissible_brink, by decide, hvalid, ?_⟩
  have hf : Funded ((Book.empty.pushTip brink.stored).main lastPayment.chain) := by
    rw [hmain]
    exact law_funded.opens brink hgenesis
  apply (hf.postStates_overflow_iff hsound' hkeeps hvalid).2
  rw [hmain]
  refine ⟨rfl, rfl, ⟨?_, ?_, ?_, ?_⟩, rfl⟩
  all_goals decide +kernel

end

end ChainState
