import ChainState.Proofs.Building
import ChainState.Proofs.Difficulty
import ChainState.Proofs.NodeSteps
import ChainState.Proofs.Reorganisation

/-!
# Best chains are valid, and no step makes one lighter

A node opens and extends chains in three ways, and only one of them runs the
validator. Still every best chain begins with a block that passes as a genesis,
and each of its headers follows from the one below. A block is never lighter
than its parent, and a branch is switched to only if it is the heavier one, so
a tip gives way to none that is lighter.
-/

set_option autoImplicit false

namespace ChainState

section

variable [Crypto]

theorem Transaction.unsignedEncode_stored (t : Transaction) :
    t.stored.unsignedEncode = t.unsignedEncode := by
  rw [unsignedEncode, fields_stored, unsignedEncode]

theorem Transaction.verifies_stored (t : Transaction) : t.stored.verifies = t.verifies := by
  rw [verifies, sender_stored, unsignedEncode_stored, signature_stored, verifies]

theorem validateTransaction_stored {t : Transaction} (hv : t.version ≠ .unknown 0)
    (chain : Bytes) : validateTransaction t.stored chain = validateTransaction t chain := by
  have hverifies := t.verifies_stored
  have hversion := t.version_stored.trans (Version.ofId_id_eq_iff.2 hv)
  by_cases ht : t.isTransfer = true
  · rw [validateTransaction, hversion, hverifies, Transaction.stored_transfer ht]
    rfl
  · have hchain : t.stored.chain = t.chain := by
      rw [Transaction.stored_eq, Transaction.written, if_neg ht]
      rfl
    rw [validateTransaction, hverifies, Transaction.isTransfer_stored, hversion, hchain,
      validateTransaction]
    simp [ht]

theorem version_of_validateTransaction {t : Transaction} {chain : Bytes}
    (h : validateTransaction t chain = .ok ()) : t.version = .current := by
  simp only [validateTransaction, Check.bind_eq_ok, Check.require_eq_ok] at h
  exact h.choose_spec.1

theorem validateTransaction_stored_ok {t : Transaction} {chain : Bytes}
    (h : validateTransaction t chain = .ok ()) : validateTransaction t.stored chain = .ok () := by
  rw [validateTransaction_stored (by simp [version_of_validateTransaction h]), h]

theorem Block.verifies_stored (b : Block) : b.stored.verifies = b.verifies := by
  have hcovered : b.stored.unsignedEncode = b.unsignedEncode := by
    rw [stored_eq, Content.unsignedEncode, Content.unsignedEncode, Content.fields, Content.fields]
    simp only [toContent_hashed, Version.id_ofId, Transaction.toBencode_stored]
  rw [verifies, hcovered, stored_eq, verifies]
  rfl

variable {K : Registry} {A B : Book} {r s : Repository} {b parent : Block} {waited : Int64}

theorem HeaderFits.stored (h : HeaderFits b parent waited) :
    HeaderFits b.stored parent waited := by
  have hverifies := b.verifies_stored.trans h.verifies
  have htransaction := validateTransaction_stored_ok h.transaction
  have hversion : Version.ofId b.version.id = .current := by rw [h.version]; rfl
  rw [Block.stored_eq] at hverifies ⊢
  exact ⟨hversion, hverifies, htransaction, h.chain, h.height, h.interval,
    h.generationSignature, h.baseTarget, h.cumulativeDifficulty⟩

theorem GenesisFits.stored (h : GenesisFits b) : GenesisFits b.stored := by
  have hverifies := b.verifies_stored.trans h.verifies
  have htransaction := validateTransaction_stored_ok h.transaction
  have hnote := b.transaction.isTransfer_stored.trans h.isNote
  have hsender := b.transaction.sender_stored.trans h.sender
  have hversion : Version.ofId b.version.id = .current := by rw [h.version]; rfl
  rw [Block.stored_eq] at hverifies ⊢
  exact ⟨hversion, hverifies, h.isGenesis, htransaction, hnote, hsender, h.height, h.baseTarget,
    h.cumulativeDifficulty, h.generationSignature, h.balance, h.nonce⟩

/-- The header of `b` follows from that of its parent. -/
structure Block.Follows (parent b : Block) : Prop where
  verifies : b.verifies = true
  transaction : b.transaction.verifies = true
  later : parent.timestamp < b.timestamp
  generationSignature :
    b.generationSignature = Consensus.generationSignature parent.generationSignature b.miner
  baseTarget : ∃ interval : Int64,
    interval.toInt = b.timestamp.toInt - parent.timestamp.toInt ∧
      b.baseTarget = Consensus.nextBaseTarget parent.baseTarget interval
  cumulativeDifficulty :
    b.cumulativeDifficulty = Consensus.nextDifficulty parent.cumulativeDifficulty b.baseTarget
  lowest : 2 ^ 32 ≤ b.baseTarget.toNat
  heavier : parent.cumulativeDifficulty.toNat ≠ Consensus.highestWord →
    parent.cumulativeDifficulty < b.cumulativeDifficulty

structure ValidChain (main : List Block) : Prop where
  opens : ∀ first ∈ main.head?, first.height = 0 ∧ validateGenesis first = .ok ()
  follows : main.IsChain Block.Follows

open Check

theorem verifies_of_validateTransaction {t : Transaction} {chain : Bytes} {u : Unit}
    (h : validateTransaction t chain = .ok u) : t.verifies = true := by
  simp only [validateTransaction, bind_eq_ok, require_eq_ok] at h
  obtain ⟨_, -, _, -, _, hverifies, -⟩ := h
  exact hverifies

theorem HeaderFits.follows (h : HeaderFits b parent waited) : parent.Follows b := by
  obtain ⟨hwaited, hlater⟩ := intervalAfter_eq_ok.1 h.interval
  exact {
    verifies := h.verifies
    transaction := verifies_of_validateTransaction h.transaction
    later := hlater
    generationSignature := h.generationSignature
    baseTarget := ⟨waited, hwaited, h.baseTarget⟩
    cumulativeDifficulty := h.cumulativeDifficulty
    lowest := by
      rw [h.baseTarget]
      exact Consensus.lowest_le_nextBaseTarget _ _
    heavier := fun hne => by
      rw [h.cumulativeDifficulty]
      exact Consensus.lt_nextDifficulty hne _ }

theorem Enters.header (hsig : Crypto.AcceptsOwnSignatures) (h : Enters r b) (hA : A.Sound K)
    (hr : r.Keeps A) :
    ∃ parent waited, (A.main b.chain).getLast? = some parent ∧ HeaderFits b parent waited := by
  have hvalid : validateBlock r b = .ok () := by
    cases h with
    | validated h => exact h
    | built m t now h => exact validateBlock_of_buildAt hsig hA hr (Miner.buildAt_of_build h)
  obtain ⟨parent, waited, hfound, htip, hheader, -⟩ := validateBlock_eq_ok.1 hvalid
  exact ⟨parent, waited, (getLast?_of_found hA hr hfound htip).1, hheader⟩

namespace ValidChain

theorem nil : ValidChain [] := ⟨by simp, .nil⟩

theorem left {lo hi : List Block} (h : ValidChain (lo ++ hi)) : ValidChain lo where
  opens first hfirst := h.opens first (List.mem_head?_append_of_mem_head? hfirst)
  follows := h.follows.left_of_append

theorem opening (h : validateGenesis b = .ok ()) : ValidChain [b.stored] where
  opens first hfirst := by
    obtain rfl : b.stored = first := by simpa using hfirst
    have hfits := (validateGenesis_eq_ok.1 h).stored
    exact ⟨hfits.height, validateGenesis_eq_ok.2 hfits⟩
  follows := .singleton _

theorem concat {main : List Block} (h : ValidChain main) (hparent : main.getLast? = some parent)
    (hb : parent.Follows b) : ValidChain (main ++ [b]) where
  opens first hfirst := by
    cases main with
    | nil => cases hparent
    | cons x rest => exact h.opens first hfirst
  follows := by
    refine isChain_concat h.follows fun t ht => ?_
    obtain rfl : parent = t := by simpa [hparent] using ht
    exact hb

end ValidChain

/-- Best chains are valid, also where a miner connects what it has built
without a check. -/
theorem law_validChain (hsig : Crypto.AcceptsOwnSignatures) : Law ValidChain where
  nil := .nil
  left _ _ h := h.left
  begins _ h first hfirst := (validateGenesis_eq_ok.1 (h.opens first hfirst).2).isGenesis
  opens _ h := .opening h
  joins hA hr h ha := by
    obtain ⟨parent, waited, hparent, hheader⟩ := h.header hsig hA hr
    exact ha.concat hparent hheader.stored.follows

theorem Transaction.verifies_sign (hsig : Crypto.AcceptsOwnSignatures) {t : Transaction}
    {seed : Seed} (h : t.sender = Crypto.publicKey seed) : (t.sign seed).verifies = true := by
  have hcovered : (t.sign seed).unsignedEncode = t.unsignedEncode := rfl
  rw [verifies, hcovered, show (t.sign seed).sender = t.sender from rfl, h]
  exact hsig seed t.unsignedEncode

theorem Miner.validateGenesis_genesis (hsig : Crypto.AcceptsOwnSignatures) (miner : Miner)
    (timestamp : Int64) {balance : Int64} (hbalance : 0 ≤ balance) :
    validateGenesis (miner.genesis timestamp balance) = .ok () := by
  have hnote : validateTransaction (miner.note timestamp (Bytes.ofString "genesis")) miner.chain =
      .ok () := by
    have hverifies : (miner.note timestamp (Bytes.ofString "genesis")).verifies = true :=
      Transaction.verifies_sign hsig rfl
    simp only [validateTransaction, hverifies, bind_eq_ok, require_eq_ok]
    exact ⟨(), rfl, (), rfl, (), trivial, rfl⟩
  refine validateGenesis_eq_ok.2 ⟨rfl, Block.verifies_sign hsig rfl, ?_, hnote, rfl, rfl, rfl, rfl,
    rfl, rfl, hbalance, Int64.le_refl _⟩
  simp [genesis, Block.sign, Block.isGenesis, FixedBytes.isZero]

/-- No best chain ends lighter than it did. -/
def Book.TipsHold (A B : Book) : Prop :=
  ∀ c, ∀ tip ∈ (A.main c).getLast?, ∃ tip' ∈ (B.main c).getLast?,
    tip.cumulativeDifficulty ≤ tip'.cumulativeDifficulty

theorem Book.tipsHold_pushTip
    (h : ∀ tip ∈ (A.main b.chain).getLast?, tip.cumulativeDifficulty ≤ b.cumulativeDifficulty) :
    A.TipsHold (A.pushTip b) := by
  intro c tip htip
  rw [Book.main_pushTip]
  split
  · next hc =>
    subst hc
    exact ⟨b, by simp, h tip htip⟩
  · exact ⟨tip, htip, UInt64.le_refl _⟩

theorem NodeCall.Advances.tipsHold {call : NodeCall} (hsig : Crypto.AcceptsOwnSignatures)
    (hA : A.Sound K) (hr : r.Keeps A) (h : call.Advances K r A B) : A.TipsHold B := by
  cases h with
  | same => exact fun c tip htip => ⟨tip, htip, UInt64.le_refl _⟩
  | @opened b _ hempty =>
    apply Book.tipsHold_pushTip
    intro tip htip
    simp [hempty] at htip
  | @entered b h =>
    obtain ⟨parent, waited, hparent, hheader⟩ := h.header hsig hA hr
    apply Book.tipsHold_pushTip
    intro tip htip
    obtain rfl : parent = tip := by simpa [hparent] using htip
    rw [hheader.stored.cumulativeDifficulty]
    exact Consensus.le_nextDifficulty _ _
  | setAside => exact fun c tip htip => ⟨tip, htip, UInt64.le_refl _⟩
  | @switched branch lo hi fork chain _ h =>
    intro c tip htip
    rw [Branch.main_rebased h.onChain]
    split
    · next hc =>
      subst hc
      obtain ⟨last, hlast⟩ : ∃ last, branch.getLast? = some last :=
        ⟨_, List.getLast?_eq_some_getLast h.nonempty⟩
      have hheavier := h.heavier tip htip last hlast
      refine ⟨last.stored, ?_, ?_⟩
      · rw [List.getLast?_append_of_ne_nil _ (by simpa using h.nonempty), List.getLast?_map, hlast]
        rfl
      · rw [Block.stored_eq]
        exact UInt64.le_of_lt hheavier
    · exact ⟨tip, htip, UInt64.le_refl _⟩

namespace NodeStep

theorem opens_validChain (hsig : Crypto.AcceptsOwnSignatures) (step : NodeStep) :
    ∀ call ∈ step.calls, call.Opens ValidChain := by
  intro call hcall
  cases step with
  | openChain miner timestamp balance =>
    rw [calls] at hcall
    split at hcall
    · cases hcall
    · next hbalance =>
      obtain rfl := List.mem_singleton.1 hcall
      exact .opening (miner.validateGenesis_genesis hsig timestamp (Int64.not_lt.1 hbalance))
  | mine miner t now =>
    obtain rfl := List.mem_singleton.1 hcall
    trivial
  | submit block =>
    obtain rfl := List.mem_singleton.1 hcall
    trivial
  | switch branch =>
    have hcases : call = .switch branch ∨ call = .flush := by simpa [calls] using hcall
    rcases hcases with rfl | rfl <;> trivial

/-- Whatever steps a node has taken, its best chains are valid. And no step
leaves a best chain with a lighter tip than it had. -/
theorem run_valid (hsig : Crypto.AcceptsOwnSignatures) {steps : List NodeStep}
    (h : Admissible (blocks steps)) :
    (∀ chain, ∃ main, Spine (run steps) chain main ∧ ValidChain main) ∧
      ∀ before step after, steps = before ++ step::after → ∀ chain tip,
        (run before).tip chain = .ok (some tip) →
          ∃ tip', (run (before ++ [step])).tip chain = .ok (some tip') ∧
            tip.cumulativeDifficulty ≤ tip'.cumulativeDifficulty := by
  have hopens : ∀ step ∈ steps, ∀ call ∈ step.calls, call.Opens ValidChain :=
    fun step _ => opens_validChain hsig step
  constructor
  · intro chain
    obtain ⟨A, hA, hr, ha⟩ := (between_of_law (law_validChain hsig) h hopens).1.staged
    exact ⟨A.main chain, hr.spine hA chain, ha chain⟩
  · rintro before step after rfl chain tip htip
    obtain ⟨⟨hsteady, hsettled⟩, hknown⟩ := between_before (law_validChain hsig) h hopens
    obtain ⟨A, hA, hr, ha⟩ := hsteady.staged
    have hbegins := fun c => (law_validChain hsig).begins _ (ha c)
    obtain ⟨-, B, hB, hs, hadvances⟩ := perform_leads hA hr hsettled hbegins step hknown
    rw [hr.tip_eq hA, Except.ok.injEq] at htip
    obtain ⟨tip', htip', hle⟩ := hadvances.tipsHold hsig hA hr chain tip htip
    refine ⟨tip', ?_, hle⟩
    rw [run, List.foldl_append]
    show (perform (run before) step).tip chain = _
    rw [hs.tip_eq hB, htip']

end NodeStep

end

section

attribute [local instance] checksum

/-- A chain is opened, a payment taken in, and the chain switched to a rival
branch. -/
def rivalSteps : List NodeStep :=
  [.openChain founder 0 1000, .submit payment, .switch rivalBranch]

theorem admissible_rivalSteps : Admissible (NodeStep.blocks rivalSteps) :=
  admissible_rivalBranch

theorem spine_rivalSteps : Spine (NodeStep.run rivalSteps) [0x61] (opening::rivalBranch) := by
  obtain ⟨K, B, hB, hs, hmain⟩ := keeps_switched
  have hflush : Transition.Ends Transition.flush
      (Branch.switch (NodeCall.run paidCalls) rivalBranch).2 fun _ u => u.Keeps B :=
    (hs.ends_flush_all hB).mono fun _ u hu =>
      hs.congr fun k => (hu.value k).trans (Repository.value_handDownAll _ k)
  have hsettled : (NodeStep.run rivalSteps).Keeps B := hflush.snd
  exact hmain ▸ hsettled.spine hB [0x61]

/-- The notes that were switched to are a valid chain, and heavier than the payment. -/
theorem NodeStep.run_valid_rival : Crypto.AcceptsOwnSignatures ∧
    Admissible (blocks rivalSteps) ∧
    Spine (run rivalSteps) [0x61] (opening::rivalBranch) ∧ ValidChain (opening::rivalBranch) ∧
    ∃ tip, (run rivalSteps).tip [0x61] = .ok (some tip) ∧
      payment.cumulativeDifficulty ≤ tip.cumulativeDifficulty := by
  obtain ⟨hvalid, hrises⟩ := run_valid acceptsOwnSignatures_checksum admissible_rivalSteps
  obtain ⟨main, hspine, hmain⟩ := hvalid [0x61]
  obtain rfl := spine_rivalSteps.unique hspine
  have htip : (run [.openChain founder 0 1000, .submit payment]).tip [0x61] =
      .ok (some payment) := by
    have hr : (run [.openChain founder 0 1000, .submit payment]).Keeps paidBook := keeps_paid.2
    rw [hr.tip_eq keeps_paid.1, main_paidBook]
    rfl
  exact ⟨acceptsOwnSignatures_checksum, admissible_rivalSteps, hspine, hmain,
    hrises [.openChain founder 0 1000, .submit payment] _ [] rfl [0x61] payment htip⟩

end

end ChainState
