import ChainState.Proofs.BestChain
import ChainState.Proofs.NodeHistory

/-!
# Balances are what a replay gives

Whatever a node has done, the balance and the nonce that it answers for a key
are those that the transactions of the best chain add up to, from the block
that opened the chain to the tip.
-/

set_option autoImplicit false

namespace ChainState

/-- After any history, every account holds what replaying its best chain over
the integers gives. -/
theorem NodeCall.run_replay [Crypto] {calls : List NodeCall}
    (h : Admissible (blocksFrom .empty calls)) (chain : Bytes) :
    ∃ main, Spine (run calls) chain main ∧ (∀ first ∈ main.head?, first.isGenesis = true) ∧
      ∀ pk, ∃ account, (run calls).account chain pk = .ok account ∧
        account.balance.toInt = (Tally.replay main pk).balance ∧
        account.nonce.toInt = (Tally.replay main pk).nonce := by
  have hall : Admissible (blocksFrom .empty calls ++ []) := by rwa [List.append_nil]
  obtain ⟨A, hA, hr, ha⟩ := (steady_of_admissible hall).staged
  refine ⟨A.main chain, hr.spine hA chain, fun g hg => ((ha chain).opens g hg).1, fun pk => ?_⟩
  have hentry := (ha chain).entry_accountOn pk
  refine ⟨accountOn (A.main chain) pk, hr.account_eq hA chain pk, ?_, ?_⟩
  · rw [← hentry]
    rfl
  · rw [← hentry]
    rfl

section

attribute [local instance] checksum

def founder : Miner := ⟨[0x61], .ofBytes (List.replicate 32 1)⟩

def opening : Block := founder.genesis 0 1000

/-- The founder seals a block ten minutes after another. -/
def sealOn (parent : Block) (t : Transaction) (states : PostStates) : Block :=
  let baseTarget := Consensus.nextBaseTarget parent.baseTarget 600
  Block.sign
    (.hashed { parent.toContent with
      timestamp := parent.timestamp + 600
      height := parent.height + 1
      parent := parent.hash
      baseTarget
      cumulativeDifficulty := Consensus.nextDifficulty parent.cumulativeDifficulty baseTarget
      generationSignature :=
        Consensus.generationSignature parent.generationSignature founder.key
      transaction := t
      states })
    founder.seed

def payment : Block :=
  sealOn opening
    ((Transaction.transfer [0x61] 600 founder.key (.ofBytes (List.replicate 32 2)) 0 1 100
      []).sign founder.seed)
    ⟨⟨900, 1⟩, ⟨900, 1⟩, ⟨100, 0⟩⟩

/-- A founder opens a chain and pays someone else, in a block of its own. -/
def paidCalls : List NodeCall := [.openChain founder 0 1000, .submit payment]

theorem blocksFrom_paidCalls : NodeCall.blocksFrom .empty paidCalls = [opening, payment] := rfl

theorem admissible_paidCalls : Admissible (NodeCall.blocksFrom .empty paidCalls) := by
  rw [blocksFrom_paidCalls]
  decide +kernel

theorem stored_paid : opening.stored = opening ∧ payment.stored = payment := by decide +kernel

theorem tipFits_payment : TipFits payment [opening] opening 600 := by decide +kernel

def rival : Block := sealOn opening (founder.note 600 []) ⟨⟨1000, 0⟩, .zero, .zero⟩

theorem tipFits_rival : TipFits rival [opening] opening 600 := by decide +kernel

def heir : Block := sealOn payment (founder.note 1200 []) ⟨⟨900, 1⟩, .zero, .zero⟩

theorem tipFits_heir : TipFits heir [opening, payment] payment 600 := by decide +kernel

def openingBook : Book := Book.empty.pushTip opening

def paidBook : Book := openingBook.pushTip payment

theorem keeps_opened {K : Registry} (hopening : K.known opening) :
    openingBook.Sound K ∧ (NodeCall.run [.openChain founder 0 1000]).overlays = [] ∧
      (NodeCall.run [.openChain founder 0 1000]).Keeps openingBook := by
  have hempty := Book.sound_empty K
  have hsound : openingBook.Sound K := Book.sound_pushTip hempty hopening (by decide +kernel)
  refine ⟨hsound, ?_⟩
  have hconnects : Transition.Ends (Transition.connectTip opening) .empty
      fun _ s => s.Keeps (Book.empty.pushTip opening.stored) :=
    Transition.ends_connectTip hempty Repository.keeps_empty (stored_paid.1.symm ▸ hopening)
      (by decide +kernel)
  rw [stored_paid.1] at hconnects
  show Transition.Leaves (Node.openChain founder 0 1000) .empty
    fun s => s.overlays = [] ∧ s.Keeps openingBook
  refine NodeCall.leaves_openChain Repository.keeps_empty (fun h => absurd rfl h) fun _ => ?_
  exact Node.leaves_settle hsound rfl (Transition.amends_connectTip opening).toLocal hconnects

theorem keeps_paidCalls {K : Registry} (hopening : K.known opening) (hpayment : K.known payment) :
    paidBook.Sound K ∧ (NodeCall.run paidCalls).Keeps paidBook := by
  obtain ⟨hopens, hbare, hr⟩ := keeps_opened hopening
  have hmain : openingBook.main payment.chain = [opening] := by decide +kernel
  have hfits : TipFits payment (openingBook.main payment.chain) opening 600 := by
    rw [hmain]
    exact tipFits_payment
  have hpaid : paidBook.Sound K := Book.sound_pushTip hopens hpayment hfits.takesTip
  have haccepts := Node.ends_accept_of_tipFits hopens hr (stored_paid.2.symm ▸ hpayment) hfits
  rw [stored_paid.2] at haccepts
  exact ⟨hpaid, ((Node.ends_submit hpaid hbare haccepts).mono fun _ _ hs => hs.2.2).snd⟩

theorem keeps_paid : paidBook.Sound admissible_paidCalls.registry ∧
    (NodeCall.run paidCalls).Keeps paidBook :=
  keeps_paidCalls ⟨opening, by simp [blocksFrom_paidCalls], stored_paid.1⟩
    ⟨payment, by simp [blocksFrom_paidCalls], stored_paid.2⟩

theorem main_paidBook : paidBook.main [0x61] = [opening, payment] := by decide +kernel

theorem spine_paidCalls : Spine (NodeCall.run paidCalls) [0x61] [opening, payment] :=
  main_paidBook ▸ keeps_paid.2.spine keeps_paid.1 [0x61]

/-- The founder has paid amount and fee, and got the fee back. -/
theorem NodeCall.run_replay_paid : Admissible (blocksFrom .empty paidCalls) ∧
    Spine (run paidCalls) [0x61] [opening, payment] ∧
    (∃ account, (run paidCalls).account [0x61] founder.key = .ok account ∧
      account.balance.toInt = 900 ∧ account.nonce.toInt = 1) ∧
    ∃ account, (run paidCalls).account [0x61] payment.transaction.receiver = .ok account ∧
      account.balance.toInt = 100 ∧ account.nonce.toInt = 0 := by
  obtain ⟨main, hspine, -, haccounts⟩ := run_replay admissible_paidCalls [0x61]
  obtain rfl := spine_paidCalls.unique hspine
  have hpays : Tally.replay [opening, payment] founder.key = ⟨900, 1⟩ := by decide +kernel
  have hpaid : Tally.replay [opening, payment] payment.transaction.receiver = ⟨100, 0⟩ := by
    decide +kernel
  obtain ⟨payer, hpayer, hbalance, hnonce⟩ := haccounts founder.key
  obtain ⟨payee, hpayee, hbalance', hnonce'⟩ := haccounts payment.transaction.receiver
  rw [hpays] at hbalance hnonce
  rw [hpaid] at hbalance' hnonce'
  exact ⟨admissible_paidCalls, spine_paidCalls, ⟨payer, hpayer, hbalance, hnonce⟩, payee, hpayee,
    hbalance', hnonce'⟩

end

end ChainState
