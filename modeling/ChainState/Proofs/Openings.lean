import ChainState.Proofs.Building
import ChainState.Proofs.ValidChains

/-!
# What may open a chain

The check of a genesis is the conjunction of what is asked of it, and nothing
else. It asks that the transaction is no transfer, so that it takes a
transaction of a kind that nobody knows for a note. Among the known kinds only
a note opens a chain.
-/

set_option autoImplicit false

namespace ChainState

/-- A block that opens a chain: signed by its miner, with no parent, at the
values that every chain starts from, and with a valid transaction of its
miner's own, whose kind is among those given. -/
structure Block.Opens [Crypto] (kinds : TransactionKind → Prop) (b : Block) : Prop where
  version : b.version = .current
  verifies : b.verifies = true
  parent : b.parent = .zero
  transaction : validateTransaction b.transaction b.chain = .ok ()
  kind : kinds b.transaction.kind
  sender : b.transaction.sender = b.miner
  height : b.height = 0
  baseTarget : b.baseTarget = Consensus.genesisBaseTarget
  cumulativeDifficulty : b.cumulativeDifficulty = 0
  generationSignature : b.generationSignature = Consensus.generationSignature .zero b.miner
  balance : 0 ≤ b.states.miner.balance
  nonce : 0 ≤ b.states.miner.nonce

theorem Transaction.isTransfer_eq_false {t : Transaction} :
    t.isTransfer = false ↔ t.kind ≠ .transfer := by
  simp [isTransfer]

section

variable [Crypto] {b : Block}

theorem Block.Opens.imp {kinds others : TransactionKind → Prop} (h : b.Opens kinds)
    (hkind : kinds b.transaction.kind → others b.transaction.kind) : b.Opens others :=
  { h with kind := hkind h.kind }

theorem Block.isGenesis_iff : b.isGenesis = true ↔ b.parent = .zero := by
  simp [isGenesis, FixedBytes.isZero]

theorem genesisFits_iff : GenesisFits b ↔ b.Opens (· ≠ .transfer) := by
  constructor
  · intro h
    exact ⟨h.version, h.verifies, Block.isGenesis_iff.1 h.isGenesis, h.transaction,
      Transaction.isTransfer_eq_false.1 h.isNote, h.sender, h.height, h.baseTarget,
      h.cumulativeDifficulty, h.generationSignature, h.balance, h.nonce⟩
  · intro h
    exact ⟨h.version, h.verifies, Block.isGenesis_iff.2 h.parent, h.transaction,
      Transaction.isTransfer_eq_false.2 h.kind, h.sender, h.height, h.baseTarget,
      h.cumulativeDifficulty, h.generationSignature, h.balance, h.nonce⟩

/-- A genesis passes just if all that is asked of it holds, its transaction being
no transfer. Where the kind is known, that is to say a note. -/
theorem validateGenesis_exact (b : Block) :
    (validateGenesis b = .ok () ↔ b.Opens (· ≠ .transfer)) ∧
      (b.transaction.kind = .note ∨ b.transaction.kind = .transfer →
        (validateGenesis b = .ok () ↔ b.Opens (· = .note))) := by
  have hexact : validateGenesis b = .ok () ↔ b.Opens (· ≠ .transfer) :=
    validateGenesis_eq_ok.trans genesisFits_iff
  refine ⟨hexact, fun hknown => hexact.trans ⟨fun h => h.imp hknown.resolve_right, fun h => ?_⟩⟩
  refine h.imp fun hnote => ?_
  rw [hnote]
  decide

end

section

attribute [local instance] checksum

theorem validateGenesis_exact_opening : opening.transaction.kind = .note ∧
    validateGenesis opening = .ok () ∧ opening.Opens (· = .note) := by
  have hpasses : validateGenesis opening = .ok () :=
    founder.validateGenesis_genesis acceptsOwnSignatures_checksum 0 (by decide)
  exact ⟨rfl, hpasses, ((validateGenesis_exact opening).2 (.inl rfl)).1 hpasses⟩

/-- The founder opens the chain with a transaction of a kind that nobody knows. -/
def oddOpening : Block :=
  let transaction := { founder.note 0 [] with kind := ⟨2⟩ }.sign founder.seed
  Block.sign (.hashed { opening.toContent with transaction }) founder.seed

theorem validateGenesis_odd :
    validateGenesis oddOpening = .ok () ∧ ¬ oddOpening.Opens (· = .note) := by
  have hodd : oddOpening.transaction.kind ≠ .note := by decide
  exact ⟨by decide +kernel, fun h => hodd h.kind⟩

end

end ChainState
