import ChainState.Proofs.Received
import ChainState.Proofs.ValidChains

/-!
# A block is treated as its canonical form

What surrounds a block in the bytes that carry it may be anything. A node
decides by what the canonical form holds alone: the block that was read and
the one read again from that form are placed, checked and put away alike. The
two differ in the fields that a note leaves out and in what is noted for the
next flush, and neither shows in an answer or in a record.
-/

set_option autoImplicit false

namespace ChainState

section

variable [Crypto]

namespace Transition

variable {ε α β : Type}

/-- Run on `r`, both give the same answer and leave the same under every key. -/
def Coincide (t u : ExceptT ε (StateM Repository) α) (r : Repository) : Prop :=
  (t.run.run r).1 = (u.run.run r).1 ∧ ∀ k, (t.run.run r).2.value k = (u.run.run r).2.value k

variable {t u : ExceptT ε (StateM Repository) α} {r : Repository}

theorem Coincide.refl (t : ExceptT ε (StateM Repository) α) (r : Repository) :
    Coincide t t r := ⟨rfl, fun _ => rfl⟩

theorem coincide_bind {f g : α → ExceptT ε (StateM Repository) β}
    (h : ∀ x s, Coincide (f x) (g x) s) : Coincide (t >>= f) (t >>= g) r := by
  cases hrun : t.run.run r with
  | mk x s =>
    cases x with
    | ok x =>
      rw [Coincide, run_bind_ok hrun, run_bind_ok hrun]
      exact h x s
    | error e =>
      rw [Coincide, run_bind_error hrun, run_bind_error hrun]
      exact ⟨rfl, fun _ => rfl⟩

theorem Coincide.answering (h : Coincide t u r) (y : β) :
    Coincide (t >>= fun _ => pure y) (u >>= fun _ => pure y) r := by
  obtain ⟨hanswer, hvalue⟩ := h
  rcases ht : t.run.run r with ⟨x | x, s⟩ <;> rcases hu : u.run.run r with ⟨y | y, s'⟩ <;>
    rw [ht, hu] at hanswer hvalue
  · rw [Coincide, run_bind_error ht, run_bind_error hu]
    exact ⟨congrArg Except.error (Except.error.inj hanswer), hvalue⟩
  · cases hanswer
  · cases hanswer
  · rw [Coincide, run_bind_ok ht, run_bind_ok hu]
    exact ⟨rfl, hvalue⟩

theorem coincide_note (b c : Block) : Coincide (note b) (note c) r :=
  ⟨rfl, fun _ => (Repository.value_note ..).trans (Repository.value_note ..).symm⟩

end Transition

open Transition

namespace Node

variable {α β : Type} {r : Repository}

theorem coincide_ofTransition {ε : Type} {error : RepositoryError → ε} {t u : Transition α}
    (h : Coincide t u r) : Coincide (ofTransition error t) (ofTransition error u) r := by
  obtain ⟨hanswer, hvalue⟩ := h
  refine ⟨?_, by rwa [snd_ofTransition, snd_ofTransition]⟩
  rcases ht : t.run.run r with ⟨x | x, s⟩ <;> rcases hu : u.run.run r with ⟨y | y, s'⟩ <;>
    rw [ht, hu] at hanswer
  · rw [run_ofTransition_error ht, run_ofTransition_error hu, Except.error.inj hanswer]
  · cases hanswer
  · cases hanswer
  · rw [run_ofTransition_ok ht, run_ofTransition_ok hu, Except.ok.inj hanswer]

theorem coincide_ofCheck {check check' : Repository → Check α}
    {f g : α → Action ValidationError β} (hsame : check r = check' r)
    (h : ∀ x, Coincide (f x) (g x) r) :
    Coincide (ofCheck check >>= f) (ofCheck check' >>= g) r := by
  have hrun := run_ofCheck check r
  have hrun' := run_ofCheck check' r
  rw [← hsame] at hrun'
  cases hx : check r with
  | ok x =>
    rw [hx] at hrun hrun'
    rw [Coincide, run_bind_ok hrun, run_bind_ok hrun']
    exact h x
  | error e =>
    rw [hx] at hrun hrun'
    rw [Coincide, run_bind_error hrun, run_bind_error hrun']
    exact ⟨rfl, fun _ => rfl⟩

end Node

variable {K : Registry} {A : Book} {r : Repository}

open Check

namespace Block

theorem account?_stored (b : Block) (pk : PublicKey) : b.stored.account? pk = b.account? pk := by
  rw [account?, holding?_stored, account?, stored_eq]
  rfl

theorem placement_stored (b : Block) : r.placement b.stored = r.placement b := by
  simp only [Repository.placement, hash_stored, chain_stored, height_stored, parent_stored]

section

variable {b : Block} (hb : b.version ≠ .unknown 0) (ht : b.transaction.version ≠ .unknown 0)

include hb ht

theorem validateGenesis_stored : validateGenesis b.stored = validateGenesis b := by
  have hverifies := b.verifies_stored
  rw [stored_eq, Version.ofId_id_eq_iff.2 hb] at hverifies ⊢
  simp only [validateGenesis, hverifies, toContent_hashed, validateTransaction_stored ht,
    Transaction.isTransfer_stored, Transaction.sender_stored]
  rfl

theorem validateHeader_stored : validateHeader r b.stored = validateHeader r b := by
  have hverifies := b.verifies_stored
  rw [stored_eq, Version.ofId_id_eq_iff.2 hb] at hverifies ⊢
  simp only [validateHeader, hverifies, toContent_hashed, validateTransaction_stored ht]
  rfl

end

end Block

namespace Repository.Keeps

variable (hA : A.Sound K) (hr : r.Keeps A)

include hA hr

theorem postStates_stored (miner : PublicKey) (t : Transaction) :
    postStates r miner t.stored = postStates r miner t := by
  cases ht : t.isTransfer with
  | true =>
    rw [Transaction.stored_transfer ht]
    rfl
  | false =>
    have hchain : t.stored.chain = t.chain := by
      rw [Transaction.stored_eq, Transaction.written, if_neg (by simp [ht])]
      rfl
    rw [hr.postStates_note hA ((t.isTransfer_stored).trans ht), hr.postStates_note hA ht, hchain]

theorem validateBlock_stored {b : Block} (hb : b.version ≠ .unknown 0)
    (ht : b.transaction.version ≠ .unknown 0) : validateBlock r b.stored = validateBlock r b := by
  have hheader := Block.validateHeader_stored (r := r) hb ht
  have hstates := hr.postStates_stored hA b.miner b.transaction
  rw [Block.stored_eq] at hheader ⊢
  simp only [validateBlock, hheader, hstates, Block.toContent_hashed,
    Transaction.isTransfer_stored, Transaction.sender_stored]
  by_cases ht : b.transaction.isTransfer = true
  · rw [Transaction.receiver_stored ht]
    rfl
  · simp only [ht]
    rfl

end Repository.Keeps

namespace Transition

theorem coincide_connectTip (b : Block) : Coincide (connectTip b.stored) (connectTip b) r := by
  have hcheck : checkAboveTip b.stored = checkAboveTip b := by
    simp only [checkAboveTip, linkFault, Block.hash_stored, Block.chain_stored,
      Block.height_stored, Block.parent_stored]
  have hpromote : promote b.stored b.hash = promote b b.hash := by
    simp only [promote, Block.chain_stored, Block.height_stored]
  simp only [connectTip, hcheck, hpromote, Block.hash_stored, Block.encode_stored,
    Block.chain_stored, Block.affected_stored]
  -- up to the choice of the tail both are one run
  iterate 7 refine coincide_bind fun _ _ => ?_
  split
  · exact coincide_bind fun _ _ => coincide_bind fun _ _ => coincide_note _ _
  · exact coincide_bind fun _ _ => coincide_note _ _

theorem coincide_connectTail (b : Block) : Coincide (connectTail b.stored) (connectTail b) r := by
  have hcheck : checkBelowTail b.stored b.hash = checkBelowTail b b.hash := by
    simp only [checkBelowTail, linkFault, Block.hash_stored, Block.chain_stored,
      Block.height_stored]
  have hpromote : promote b.stored b.hash = promote b b.hash := by
    simp only [promote, Block.chain_stored, Block.height_stored]
  simp only [connectTail, hcheck, hpromote, Block.hash_stored, Block.encode_stored,
    Block.chain_stored, Block.affected_stored]
  iterate 6 refine coincide_bind fun _ _ => ?_
  exact coincide_note _ _

theorem saveFork_stored (b : Block) : saveFork b.stored = saveFork b := by
  simp only [saveFork, Block.hash_stored, Block.encode_stored, Block.chain_stored,
    Block.height_stored]

end Transition

section

variable (hA : A.Sound K) (hr : r.Keeps A) {b : Block} (hb : b.version ≠ .unknown 0)
  (ht : b.transaction.version ≠ .unknown 0)

include hA hr hb ht

theorem Node.checkAtTip_stored : checkAtTip r b.stored = checkAtTip r b := by
  have hgenesis : b.stored.isGenesis = b.isGenesis := by
    rw [Block.isGenesis, Block.parent_stored, Block.isGenesis]
  rw [checkAtTip, Block.chain_stored, hgenesis, hr.validateBlock_stored hA hb ht,
    Block.validateGenesis_stored hb ht, checkAtTip]

theorem Node.coincide_accept : Coincide (accept b.stored) (accept b) r := by
  apply coincide_ofCheck
  · rw [b.placement_stored]
  · intro placement
    cases placement with
    | extendsTip =>
      apply coincide_ofCheck (checkAtTip_stored hA hr hb ht)
      exact fun _ => (coincide_ofTransition (coincide_connectTip b)).answering _
    | extendsTail =>
      apply coincide_ofCheck
      · rw [b.verifies_stored]
      · exact fun _ => (coincide_ofTransition (coincide_connectTail b)).answering _
    | fork =>
      show Coincide (do
        discard (ofCheck fun r => validateHeader r b.stored)
        ofTransition .repository (saveFork b.stored)
        return Placement.fork) (do
        discard (ofCheck fun r => validateHeader r b)
        ofTransition .repository (saveFork b)
        return Placement.fork) r
      simp only [discard_eq_bind, bind_assoc, saveFork_stored, Block.validateHeader_stored hb ht]
      exact .refl _ _
    | stale => exact .refl _ _

end

/-- Wherever it is sent, `c` is treated as `b` is. -/
structure Block.TreatedAs (r : Repository) (b c : Block) : Prop where
  hash : c.hash = b.hash
  encode : c.encode = b.encode
  verifies : c.verifies = b.verifies
  transaction : c.transaction.verifies = b.transaction.verifies
  affected : c.affected = b.affected
  account : ∀ pk, c.account? pk = b.account? pk
  placement : r.placement c = r.placement b
  genesis : validateGenesis c = validateGenesis b
  header : validateHeader r c = validateHeader r b
  valid : validateBlock r c = validateBlock r b
  outcome : ((Node.accept c).run.run r).1 = ((Node.accept b).run.run r).1
  value : ∀ k, ((Node.accept c).run.run r).2.value k = ((Node.accept b).run.run r).2.value k

/-- Whatever a node has done, and whatever else there was in the bytes from
which a block was read: the block is read again from its canonical form as one
that is treated like it. -/
theorem NodeCall.run_relayed {calls : List NodeCall} (h : Admissible (blocksFrom .empty calls))
    {input : Bytes} {b : Block} (hb : Block.decode input = .ok b) :
    ∃ c, Block.decode b.encode = .ok c ∧ Block.TreatedAs (run calls) b c := by
  obtain ⟨K, A, hA, hr⟩ := keeps_of_admissible h
  obtain ⟨hversion, htransaction⟩ := Block.version_of_decode hb
  obtain ⟨houtcome, hvalue⟩ := Node.coincide_accept hA hr hversion htransaction
  exact ⟨b.stored, Block.decode_encode (Block.sized_of_decode hb), {
    hash := b.hash_stored
    encode := b.encode_stored
    verifies := b.verifies_stored
    transaction := by rw [b.transaction_stored, b.transaction.verifies_stored]
    affected := b.affected_stored
    account := b.account?_stored
    placement := b.placement_stored
    genesis := Block.validateGenesis_stored hversion htransaction
    header := Block.validateHeader_stored hversion htransaction
    valid := hr.validateBlock_stored hA hversion htransaction
    outcome := houtcome
    value := hvalue }⟩

end

section

attribute [local instance] checksum

/-- The block arrives around a note that carries an amount. -/
theorem NodeCall.run_relayed_note : Admissible (blocksFrom .empty paidCalls) ∧
    Block.decode (Bencode.record [(.ascii ['x'], fundedNote)]).render =
      .ok (carrier (receivedNote 5)) ∧
    ∃ c, Block.decode (carrier (receivedNote 5)).encode = .ok c ∧
      Block.TreatedAs (run paidCalls) (carrier (receivedNote 5)) c := by
  have hb : Block.decode (Bencode.record [(.ascii ['x'], fundedNote)]).render =
      .ok (carrier (receivedNote 5)) := by decide +kernel
  exact ⟨admissible_paidCalls, hb, run_relayed admissible_paidCalls hb⟩

end

end ChainState
