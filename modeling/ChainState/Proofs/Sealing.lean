import ChainState.Miner
import ChainState.Proofs.Replay

/-!
# What miners and validators ask

A miner who seals a block and a node that validates one go through their
checks in different orders, and the miner fills in what the node compares.
The conditions of either side are collected here, so that they can be set
side by side.
-/

set_option autoImplicit false

namespace ChainState

variable [Crypto] {r : Repository} {b parent : Block}

open Check

theorem chain_of_validateTransaction {t : Transaction} {chain : Bytes} {u : Unit}
    (h : validateTransaction t chain = .ok u) : t.chain = chain := by
  simp only [validateTransaction, bind_eq_ok, require_eq_ok] at h
  obtain ⟨_, -, _, hchain, -⟩ := h
  exact hchain

theorem nonneg_of_validateTransaction {t : Transaction} {chain : Bytes} {u : Unit}
    (h : validateTransaction t chain = .ok u) (ht : t.isTransfer = true) :
    0 ≤ t.amount.toInt ∧ 0 ≤ t.fee.toInt := by
  simp only [validateTransaction, ht, if_true, bind_eq_ok, require_eq_ok] at h
  obtain ⟨_, -, _, -, _, -, _, hvalue, -⟩ := h
  exact ⟨Int64.le_iff_toInt_le.1 hvalue.1, Int64.le_iff_toInt_le.1 hvalue.2⟩

structure HeaderFits (b parent : Block) (waited : Int64) : Prop where
  version : b.version = .current
  verifies : b.verifies = true
  transaction : validateTransaction b.transaction b.chain = .ok ()
  chain : parent.chain = b.chain
  height : Checked.succ? parent.height = some b.height
  interval : intervalAfter parent.timestamp b.timestamp = .ok waited
  generationSignature :
    b.generationSignature = Consensus.generationSignature parent.generationSignature b.miner
  baseTarget : b.baseTarget = Consensus.nextBaseTarget parent.baseTarget waited
  cumulativeDifficulty :
    b.cumulativeDifficulty = Consensus.nextDifficulty parent.cumulativeDifficulty b.baseTarget

instance (b parent : Block) (waited : Int64) : Decidable (HeaderFits b parent waited) :=
  decidable_of_iff (b.version = .current ∧ b.verifies = true ∧
      validateTransaction b.transaction b.chain = .ok () ∧ parent.chain = b.chain ∧
      Checked.succ? parent.height = some b.height ∧
      intervalAfter parent.timestamp b.timestamp = .ok waited ∧
      b.generationSignature =
        Consensus.generationSignature parent.generationSignature b.miner ∧
      b.baseTarget = Consensus.nextBaseTarget parent.baseTarget waited ∧
      b.cumulativeDifficulty =
        Consensus.nextDifficulty parent.cumulativeDifficulty b.baseTarget)
    ⟨fun ⟨hversion, hverifies, ht, hchain, hheight, hinterval, hsignature, htarget, hdifficulty⟩ =>
        ⟨hversion, hverifies, ht, hchain, hheight, hinterval, hsignature, htarget, hdifficulty⟩,
      fun h => ⟨h.version, h.verifies, h.transaction, h.chain, h.height, h.interval,
        h.generationSignature, h.baseTarget, h.cumulativeDifficulty⟩⟩

structure StateFits (r : Repository) (b parent : Block) (waited : Int64) : Prop where
  eligible : ∃ power, r.effectivePower b.chain b.miner = .ok power ∧
    Consensus.eligible (Consensus.hit b.generationSignature) parent.baseTarget power waited =
      .ok true
  states : ∃ states, postStates r b.miner b.transaction = .ok states ∧ b.Carries states

theorem validateHeader_eq_ok : validateHeader r b = .ok parent ↔
    r.findBlock b.parent = .ok (some parent) ∧ ∃ interval, HeaderFits b parent interval := by
  simp only [validateHeader, childHeight, bind_eq_ok, require_eq_ok, ofQuery_eq_ok,
    ofOption_eq_ok, pure_eq_ok]
  constructor
  · rintro ⟨_, hversion, _, hverifies, _, ht, _, hfound, p, rfl, _, hchain, n, hn, _, rfl,
      interval, hinterval, _, hsignature, _, htarget, _, hdifficulty, rfl⟩
    exact ⟨hfound, interval, hversion, hverifies, ht, hchain, hn, hinterval, hsignature,
      htarget, hdifficulty⟩
  · rintro ⟨hfound, interval, h⟩
    exact ⟨(), h.version, (), h.verifies, (), h.transaction, _, hfound, parent, rfl, (), h.chain,
      _, h.height, (), rfl, interval, h.interval, (), h.generationSignature, (), h.baseTarget, (),
      h.cumulativeDifficulty, rfl⟩

theorem validateBlock_eq_ok : validateBlock r b = .ok () ↔
    ∃ parent interval, r.findBlock b.parent = .ok (some parent) ∧
      r.tipHash b.chain = .ok (some parent.hash) ∧ HeaderFits b parent interval ∧
      StateFits r b parent interval := by
  simp only [validateBlock, bind_eq_ok, require_eq_ok, ofQuery_eq_ok, ofChecked_eq_ok,
    validateHeader_eq_ok]
  constructor
  · rintro ⟨parent, ⟨hfound, interval, hheader⟩, _, htip, _, rfl, power, hpower, i, hi, _,
      heligible, _, rfl, states, hstates, _, hminer, hparties⟩
    obtain rfl : interval = i := by simpa [hheader.interval] using hi
    refine ⟨parent, interval, hfound, htip, hheader, ⟨power, hpower, heligible⟩, states, hstates,
      hminer, fun ht => ?_⟩
    simp only [ht, if_true, bind_eq_ok, require_eq_ok] at hparties
    obtain ⟨_, hsender, hreceiver⟩ := hparties
    exact ⟨hsender, hreceiver⟩
  · rintro ⟨parent, interval, hfound, htip, hheader, ⟨power, hpower, heligible⟩, states, hstates,
      hcarries⟩
    refine ⟨parent, ⟨hfound, interval, hheader⟩, _, htip, (), rfl, power, hpower, interval,
      hheader.interval, true, heligible, (), rfl, states, hstates, (), hcarries.miner, ?_⟩
    split
    · next ht =>
      obtain ⟨hsender, hreceiver⟩ := hcarries.parties ht
      simp only [bind_eq_ok, require_eq_ok]
      exact ⟨(), hsender, hreceiver⟩
    · rfl

structure GenesisFits (b : Block) : Prop where
  version : b.version = .current
  verifies : b.verifies = true
  isGenesis : b.isGenesis = true
  transaction : validateTransaction b.transaction b.chain = .ok ()
  isNote : b.transaction.isTransfer = false
  sender : b.transaction.sender = b.miner
  height : b.height = 0
  baseTarget : b.baseTarget = Consensus.genesisBaseTarget
  cumulativeDifficulty : b.cumulativeDifficulty = 0
  generationSignature : b.generationSignature = Consensus.generationSignature .zero b.miner
  balance : 0 ≤ b.states.miner.balance
  nonce : 0 ≤ b.states.miner.nonce

theorem validateGenesis_eq_ok : validateGenesis b = .ok () ↔ GenesisFits b := by
  simp only [validateGenesis, bind_eq_ok, require_eq_ok]
  constructor
  · rintro ⟨_, hversion, _, hverifies, _, hgenesis, _, ht, _, ⟨hnote, hsender⟩, _, hheight, _,
      htarget, _, hdifficulty, _, hsignature, hbalance, hnonce⟩
    exact ⟨hversion, hverifies, hgenesis, ht, hnote, hsender, hheight, htarget, hdifficulty,
      hsignature, hbalance, hnonce⟩
  · intro h
    exact ⟨(), h.version, (), h.verifies, (), h.isGenesis, (), h.transaction, (),
      ⟨h.isNote, h.sender⟩, (), h.height, (), h.baseTarget, (), h.cumulativeDifficulty, (),
      h.generationSignature, h.balance, h.nonce⟩

namespace Miner

structure MaySeal (m : Miner) (r : Repository) (t : Transaction) (timestamp : Int64)
    (parent : Block) (waited number : Int64) (after : PostStates) : Prop where
  tip : r.tip m.chain = .ok (some parent)
  transaction : validateTransaction t m.chain = .ok ()
  interval : intervalAfter parent.timestamp timestamp = .ok waited
  eligible : ∃ power, r.effectivePower m.chain m.key = .ok power ∧
    Consensus.eligible
      (Consensus.hit (Consensus.generationSignature parent.generationSignature m.key))
      parent.baseTarget power waited = .ok true
  states : postStates r m.key t = .ok after
  height : Checked.succ? parent.height = some number

/-- The block that is then sealed. -/
def sealed (m : Miner) (t : Transaction) (timestamp : Int64) (parent : Block)
    (interval height : Int64) (states : PostStates) : Block :=
  let baseTarget := Consensus.nextBaseTarget parent.baseTarget interval
  Block.sign
    { version := .current
      chain := m.chain
      timestamp
      height
      parent := parent.hash
      baseTarget
      cumulativeDifficulty := Consensus.nextDifficulty parent.cumulativeDifficulty baseTarget
      generationSignature := Consensus.generationSignature parent.generationSignature m.key
      transaction := t
      miner := m.key
      states
      signature := .zero }
    m.seed

variable {m : Miner} {t : Transaction} {timestamp : Int64}

theorem buildAt_eq_ok : m.buildAt r t timestamp = .ok b ↔
    ∃ parent interval height states, m.MaySeal r t timestamp parent interval height states ∧
      m.sealed t timestamp parent interval height states = b := by
  simp only [buildAt, childHeight, bind_eq_ok, require_eq_ok, ofQuery_eq_ok, ofOption_eq_ok,
    ofChecked_eq_ok, pure_eq_ok]
  constructor
  · rintro ⟨_, htip, parent, rfl, _, ht, interval, hinterval, power, hpower, _, heligible, _, rfl,
      states, hstates, height, hheight, rfl⟩
    exact ⟨parent, interval, height, states,
      ⟨htip, ht, hinterval, ⟨power, hpower, heligible⟩, hstates, hheight⟩, rfl⟩
  · rintro ⟨parent, interval, height, states, h, rfl⟩
    obtain ⟨power, hpower, heligible⟩ := h.eligible
    exact ⟨_, h.tip, parent, rfl, (), h.transaction, interval, h.interval, power, hpower, true,
      heligible, (), rfl, states, h.states, height, h.height, rfl⟩

theorem buildAt_of_build {now : Int64} (h : m.build r t now = .ok b) :
    m.buildAt r t now = .ok b := by
  simp only [build, bind_eq_ok] at h
  obtain ⟨_, -, _, -, _, -, _, -, hbuild⟩ := h
  exact hbuild

end Miner

end ChainState
