import ChainState.Node
import ChainState.Proofs.Connect
import ChainState.Proofs.Sealing

/-!
# Verdicts on blocks

A block that passes validation, or that a miner builds, stands on the best tip
and carries the states that its transaction leads to. The verdict depends on
the best chain of its chain id and on nothing else that is stored.
-/

set_option autoImplicit false

namespace ChainState

theorem mem_toOption {ε α : Type} {e : Except ε α} {x : α} : x ∈ e.toOption ↔ e = .ok x := by
  cases e <;> simp [Except.toOption]

variable [Crypto]

open Check

structure Fits (r : Repository) (b parent : Block) : Prop where
  under : parent.Under b
  transaction : validateTransaction b.transaction b.chain = .ok ()
  states : ∃ states, postStates r b.miner b.transaction = .ok states ∧ b.Carries states

variable {K : Registry} {A B : Book} {r s : Repository} {b : Block}

theorem getLast?_of_found (hA : A.Sound K) (hr : r.Keeps A) {c : Bytes} {x : Hash}
    {parent : Block} (hfound : r.findBlock x = .ok (some parent))
    (htip : r.tipHash c = .ok (some parent.hash)) :
    (A.main c).getLast? = some parent ∧ x = parent.hash := by
  rw [hr.tipHash_eq, Except.ok.injEq] at htip
  obtain ⟨t, ht, he⟩ := Option.map_eq_some_iff.1 htip
  rcases hr.findBlock_cases hA x with ⟨p, hp, hhash, hq⟩ | ⟨-, hq⟩
  · obtain rfl : p = parent := by simpa [hq] using hfound
    obtain rfl := K.hash_inj t p (hA.known _ t (List.mem_of_getLast? ht)) (hA.holds_known hp) he
    exact ⟨ht, hhash.symm⟩
  · rw [hq] at hfound
    cases hfound

theorem Block.Under.takesTip {parent : Block} (h : parent.Under b)
    (htip : (A.main b.chain).getLast? = some parent) : A.TakesTip b := by
  intro t ht
  obtain rfl : parent = t := by simpa [htip] using ht
  exact h

theorem fits_of_validateBlock (hA : A.Sound K) (hr : r.Keeps A)
    (h : validateBlock r b = .ok ()) :
    ∃ parent, (A.main b.chain).getLast? = some parent ∧ Fits r b parent := by
  obtain ⟨parent, waited, hfound, htip, hheader, hstate⟩ := validateBlock_eq_ok.1 h
  obtain ⟨hlast, hparent⟩ := getLast?_of_found hA hr hfound htip
  exact ⟨parent, hlast, ⟨hparent, hheader.height⟩, hheader.transaction, hstate.states⟩

theorem fits_of_build (hA : A.Sound K) (hr : r.Keeps A) {m : Miner} {t : Transaction}
    {now : Int64} (h : m.build r t now = .ok b) :
    ∃ parent, (A.main b.chain).getLast? = some parent ∧ Fits r b parent := by
  obtain ⟨parent, waited, height, states, hseal, rfl⟩ :=
    Miner.buildAt_eq_ok.1 (Miner.buildAt_of_build h)
  have htip := hseal.tip
  rw [hr.tip_eq hA, Except.ok.injEq] at htip
  exact ⟨parent, htip, ⟨rfl, hseal.height⟩, hseal.transaction, states, hseal.states, rfl,
    fun _ => ⟨rfl, rfl⟩⟩

namespace Fits

variable {parent : Block}

theorem chain (h : Fits r b parent) : b.transaction.chain = b.chain :=
  chain_of_validateTransaction h.transaction

theorem takesTip (h : Fits r b parent) (htip : (A.main b.chain).getLast? = some parent) :
    A.TakesTip b :=
  h.under.takesTip htip

theorem audited (h : Fits r b parent) (hA : A.Sound K) (hr : r.Keeps A)
    (htip : (A.main b.chain).getLast? = some parent) (ha : Audited (A.main b.chain)) :
    Audited (A.main b.chain ++ [b.stored]) := by
  have hne : A.main b.chain ≠ [] := by
    intro he
    simp [he] at htip
  obtain ⟨states, hstates, hcarries⟩ := h.states
  apply ha.concat hne
  apply Block.shows_stored
  apply shows_of_postStates ?_ hstates hcarries
  intro pk a hq
  rw [h.chain, hr.account_eq hA] at hq
  cases hq
  exact ha.entry_accountOn pk

end Fits

theorem audited_genesis (hg : b.isGenesis = true) (ht : b.transaction.isTransfer = false) :
    Audited [b.stored] := by
  apply Audited.genesis
  · rw [Block.isGenesis, Block.parent_stored]
    exact hg
  · rw [Block.transaction_stored, Transaction.isTransfer_stored]
    exact ht

/-- What the keys of a transaction and its miner hold on a best chain. -/
def ledgerOn (main : List Block) (miner : PublicKey) (t : Transaction) : Ledger := fun pk =>
  if pk = miner ∨ pk = t.sender ∨ pk = t.receiver then
    ⟨(accountOn main pk).balance, (accountOn main pk).nonce⟩
  else .zero

/-- All keys of a transaction can be read, so the states that it leads to are
those of the best chain. -/
theorem Repository.Keeps.postStates_eq (hr : r.Keeps A) (hA : A.Sound K) (miner : PublicKey)
    (t : Transaction) :
    postStates r miner t = statesAfter (ledgerOn (A.main t.chain) miner t) miner t := by
  have hread (pk : PublicKey) : holdingOf r t.chain pk =
      .ok ⟨(accountOn (A.main t.chain) pk).balance, (accountOn (A.main t.chain) pk).nonce⟩ := by
    rw [holdingOf, hr.account_eq hA]
    rfl
  have hledger : ledgerBefore r miner t = .ok (ledgerOn (A.main t.chain) miner t) := by
    simp only [ledgerBefore, hread]
    refine congrArg Except.ok (funext fun pk => ?_)
    unfold ledgerOn
    split_ifs <;> simp_all
  rw [postStates, hledger]
  rfl

theorem Repository.Keeps.postStates_note (hr : r.Keeps A) (hA : A.Sound K) {t : Transaction}
    (ht : t.isTransfer = false) (miner : PublicKey) :
    postStates r miner t = .ok { PostStates.zero with
      miner := ⟨(accountOn (A.main t.chain) miner).balance,
        (accountOn (A.main t.chain) miner).nonce⟩ } := by
  simp [hr.postStates_eq hA, statesAfter, ledgerOn, ht, pure, Except.pure]

/-- A block may come next on a chain: its header fits on the tip, its miner may
seal it, and it carries the states that its transaction leads to. -/
structure TipFits (b : Block) (main : List Block) (parent : Block) (waited : Int64) : Prop where
  tip : main.getLast? = some parent
  link : b.parent = parent.hash
  header : HeaderFits b parent waited
  eligible : Consensus.eligible (Consensus.hit b.generationSignature) parent.baseTarget
    (powerOn main b.miner) waited = .ok true
  states : ∃ states, statesAfter (ledgerOn main b.miner b.transaction) b.miner b.transaction =
    .ok states ∧ b.Carries states

instance (b : Block) (main : List Block) (parent : Block) (waited : Int64) :
    Decidable (TipFits b main parent waited) :=
  let outcome := statesAfter (ledgerOn main b.miner b.transaction) b.miner b.transaction
  decidable_of_iff (main.getLast? = some parent ∧ b.parent = parent.hash ∧
      HeaderFits b parent waited ∧ Consensus.eligible (Consensus.hit b.generationSignature)
        parent.baseTarget (powerOn main b.miner) waited = .ok true ∧
      ∃ states ∈ outcome.toOption, b.Carries states)
    ⟨fun ⟨htip, hlink, hheader, heligible, states, hstates, hcarries⟩ =>
        ⟨htip, hlink, hheader, heligible, states, mem_toOption.1 hstates, hcarries⟩,
      fun h => ⟨h.tip, h.link, h.header, h.eligible, h.states.imp fun _ hs =>
        ⟨mem_toOption.2 hs.1, hs.2⟩⟩⟩

section

variable {parent : Block} {waited : Int64}

theorem TipFits.takesTip (h : TipFits b (A.main b.chain) parent waited) : A.TakesTip b :=
  Block.Under.takesTip ⟨h.link, h.header.height⟩ h.tip

theorem TipFits.validateBlock (h : TipFits b (A.main b.chain) parent waited) (hA : A.Sound K)
    (hr : r.Keeps A) : validateBlock r b = .ok () := by
  have hfound : r.findBlock b.parent = .ok (some parent) := by
    rw [h.link]
    exact hr.findBlock_of_holds hA (hA.holds_of_mem (List.mem_of_getLast? h.tip))
  have htipHash : r.tipHash b.chain = .ok (some parent.hash) := by
    rw [hr.tipHash_eq, h.tip]
    rfl
  refine validateBlock_eq_ok.2 ⟨parent, waited, hfound, htipHash, h.header,
    ⟨_, hr.effectivePower_eq hA _ _, h.eligible⟩, ?_⟩
  rw [hr.postStates_eq hA, chain_of_validateTransaction h.header.transaction]
  exact h.states

end

/-- Two repositories with one best chain give the same verdict on every block
whose parent is its tip. -/
theorem validateBlock_eq_of_onTip (hA : A.Sound K) (hr : r.Keeps A) {L : Registry}
    (hB : B.Sound L) (hs : s.Keeps B) {c : Bytes} {tip : Block} (hmain : B.main c = A.main c)
    (htip : (A.main c).getLast? = some tip) (hparent : b.parent = tip.hash) :
    validateBlock s b = validateBlock r b := by
  have hmem := List.mem_of_getLast? htip
  have hfound : r.findBlock b.parent = .ok (some tip) := by
    rw [hparent, hr.findBlock_of_holds hA (hA.holds_of_mem hmem)]
  have hfound' : s.findBlock b.parent = .ok (some tip) := by
    rw [hparent, hs.findBlock_of_holds hB (hB.holds_of_mem (hmain ▸ hmem))]
  have hheader : validateHeader s b = validateHeader r b := by
    simp only [validateHeader, hfound, hfound']
  cases hv : validateHeader r b with
  | error e => simp only [validateBlock, hheader, hv, bind, Except.bind]
  | ok parent =>
    -- A header that passes puts the block, and its transaction, on the chain of its parent.
    obtain ⟨hp, interval, hfits⟩ := validateHeader_eq_ok.1 hv
    obtain rfl : tip = parent := by simpa [hfound] using hp
    obtain rfl : c = b.chain := (hA.chain c tip hmem).symm.trans hfits.chain
    have hstates : postStates s b.miner b.transaction = postStates r b.miner b.transaction := by
      rw [hr.postStates_eq hA, hs.postStates_eq hB, chain_of_validateTransaction hfits.transaction,
        hmain]
    rw [validateBlock, hheader, hstates, hs.tipHash_eq, hs.effectivePower_eq hB, hmain,
      ← hr.tipHash_eq, ← hr.effectivePower_eq hA, validateBlock]

theorem validateBlock_congr (hA : A.Sound K) (hr : r.Keeps A) {L : Registry} (hB : B.Sound L)
    (hs : s.Keeps B) (hmain : B.main b.chain = A.main b.chain) {u : Unit}
    (h : validateBlock r b = .ok u) : validateBlock s b = .ok u := by
  obtain ⟨parent, htip, hfits⟩ := fits_of_validateBlock hA hr h
  rw [validateBlock_eq_of_onTip hA hr hB hs hmain htip hfits.under.1, h]

end ChainState
