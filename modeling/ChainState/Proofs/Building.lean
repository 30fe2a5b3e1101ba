import ChainState.Proofs.Balances
import ChainState.Proofs.Sealing

/-!
# Builders and validators agree

On every repository that a node can reach, a block that a miner builds passes
validation. Conversely, where any block of the miner passes, the miner can
build one at the same time with the same transaction, and the two agree on all
that follows from their parent.
-/

set_option autoImplicit false

namespace ChainState

section

variable [Crypto]

/-- The blocks say the same about their place and about what their accounts
hold. -/
structure Block.Agrees (a b : Block) : Prop where
  version : a.version = b.version
  chain : a.chain = b.chain
  height : a.height = b.height
  parent : a.parent = b.parent
  baseTarget : a.baseTarget = b.baseTarget
  cumulativeDifficulty : a.cumulativeDifficulty = b.cumulativeDifficulty
  generationSignature : a.generationSignature = b.generationSignature
  minerState : a.states.miner = b.states.miner
  partyStates : b.transaction.isTransfer = true →
    a.states.sender = b.states.sender ∧ a.states.receiver = b.states.receiver

theorem Block.verifies_sign (hsig : Crypto.AcceptsOwnSignatures) {b : Block} {seed : Seed}
    (h : b.miner = Crypto.publicKey seed) : (b.sign seed).verifies = true := by
  have hcovered : (b.sign seed).unsignedEncode = b.unsignedEncode := rfl
  rw [verifies, hcovered, show (b.sign seed).miner = b.miner from rfl, h]
  exact hsig seed b.unsignedEncode

variable {K : Registry} {A : Book} {r : Repository} {b : Block} {m : Miner} {t : Transaction}
  {timestamp : Int64}

theorem validateBlock_of_buildAt (hsig : Crypto.AcceptsOwnSignatures) (hA : A.Sound K)
    (hr : r.Keeps A) (h : m.buildAt r t timestamp = .ok b) : validateBlock r b = .ok () := by
  obtain ⟨parent, waited, height, states, hseal, rfl⟩ := Miner.buildAt_eq_ok.1 h
  have htip := hseal.tip
  rw [hr.tip_eq hA, Except.ok.injEq] at htip
  have hmem := List.mem_of_getLast? htip
  have hfound : r.findBlock parent.hash = .ok (some parent) :=
    hr.findBlock_of_holds hA (hA.holds_of_mem hmem)
  have hhash : r.tipHash m.chain = .ok (some parent.hash) := by
    rw [hr.tipHash_eq, htip]
    rfl
  have hheader : HeaderFits (m.sealed t timestamp parent waited height states) parent waited :=
    { version := rfl
      verifies := Block.verifies_sign hsig rfl
      transaction := hseal.transaction
      chain := hA.chain m.chain parent hmem
      height := hseal.height
      interval := hseal.interval
      generationSignature := rfl
      baseTarget := rfl
      cumulativeDifficulty := rfl }
  refine validateBlock_eq_ok.2 ⟨parent, waited, hfound, hhash, hheader, hseal.eligible, ?_⟩
  exact ⟨states, hseal.states, rfl, fun _ => ⟨rfl, rfl⟩⟩

theorem buildAt_of_validateBlock (hA : A.Sound K) (hr : r.Keeps A) (hchain : b.chain = m.chain)
    (hminer : b.miner = m.key) (h : validateBlock r b = .ok ()) :
    ∃ built, m.buildAt r b.transaction b.timestamp = .ok built ∧ built.Agrees b := by
  obtain ⟨parent, waited, hfound, hhash, hheader, hstate⟩ := validateBlock_eq_ok.1 h
  obtain ⟨htip, hparent⟩ := getLast?_of_found hA hr hfound hhash
  obtain ⟨power, hpower, heligible⟩ := hstate.eligible
  obtain ⟨states, hstates, hcarries⟩ := hstate.states
  have hsignature := hheader.generationSignature
  have hbase := hheader.baseTarget
  rw [hsignature] at heligible
  rw [hchain, hminer] at hpower
  rw [hminer] at hsignature heligible hstates
  rw [hchain] at htip
  have hseal :
      m.MaySeal r b.transaction b.timestamp parent waited b.height states :=
    { tip := by rw [hr.tip_eq hA, htip]
      transaction := hchain ▸ hheader.transaction
      interval := hheader.interval
      eligible := ⟨power, hpower, heligible⟩
      states := hstates
      height := hheader.height }
  refine ⟨_, Miner.buildAt_eq_ok.2 ⟨parent, waited, b.height, states, hseal, rfl⟩, ?_⟩
  exact {
    version := hheader.version.symm
    chain := hchain.symm
    height := rfl
    parent := hparent.symm
    baseTarget := hbase.symm
    cumulativeDifficulty := by
      rw [hheader.cumulativeDifficulty, hbase]
      rfl
    generationSignature := hsignature.symm
    minerState := hcarries.miner.symm
    partyStates := fun ht => ⟨(hcarries.parties ht).1.symm, (hcarries.parties ht).2.symm⟩ }

/-- Miners and validators agree on every repository that a node can reach. The
numbers need no bounds, as a block whose arithmetic overflows is neither built
nor accepted. -/
theorem NodeCall.run_builds_valid (hsig : Crypto.AcceptsOwnSignatures) {calls : List NodeCall}
    (h : Admissible (blocksFrom .empty calls)) (m : Miner) (t : Transaction)
    (timestamp : Int64) :
    (∀ b, m.buildAt (run calls) t timestamp = .ok b → validateBlock (run calls) b = .ok ()) ∧
      ∀ b, b.chain = m.chain → b.miner = m.key → b.transaction = t → b.timestamp = timestamp →
        validateBlock (run calls) b = .ok () →
          ∃ built, m.buildAt (run calls) t timestamp = .ok built ∧ built.Agrees b := by
  obtain ⟨K, A, hA, hr⟩ := keeps_of_admissible h
  constructor
  · intro b hb
    exact validateBlock_of_buildAt hsig hA hr hb
  · rintro b hchain hminer rfl rfl hb
    exact buildAt_of_validateBlock hA hr hchain hminer hb

end

section

attribute [local instance] checksum

theorem acceptsOwnSignatures_checksum : Crypto.AcceptsOwnSignatures := by
  intro seed message
  have hkey : (Crypto.publicKey seed).bytes = seed.bytes :=
    FixedBytes.bytes_ofBytes seed.length_bytes
  simp [Crypto.verify, Crypto.sign, hkey]

/-- The founder builds on the payment what was found to pass there. -/
theorem NodeCall.run_builds_valid_paid : Crypto.AcceptsOwnSignatures ∧
    Admissible (blocksFrom .empty paidCalls) ∧ validateBlock (run paidCalls) heir = .ok () ∧
    ∃ built, founder.buildAt (run paidCalls) (founder.note 1200 []) 1200 = .ok built ∧
      built.Agrees heir ∧ validateBlock (run paidCalls) built = .ok () := by
  obtain ⟨hvalid, hbuilds⟩ := run_builds_valid acceptsOwnSignatures_checksum admissible_paidCalls
    founder (founder.note 1200 []) 1200
  have hfits : TipFits heir (paidBook.main heir.chain) payment 600 := by
    rw [show heir.chain = [0x61] from rfl, main_paidBook]
    exact tipFits_heir
  have hpasses := hfits.validateBlock keeps_paid.1 keeps_paid.2
  obtain ⟨built, hbuilt, hagrees⟩ := hbuilds heir rfl rfl rfl rfl hpasses
  exact ⟨acceptsOwnSignatures_checksum, admissible_paidCalls, hpasses, built, hbuilt, hagrees,
    hvalid built hbuilt⟩

end

end ChainState
