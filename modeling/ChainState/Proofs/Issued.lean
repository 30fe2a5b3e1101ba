import ChainState.Proofs.Balances

/-!
# Transactions and blocks read back

Encoding and decoding gives a transaction back unchanged just where it carries
its hash and nothing that its kind leaves out. Transactions that are made and
signed are of this form, and a block is read back with its transaction,
whatever its own fields and signature are.
-/

set_option autoImplicit false

namespace ChainState

section

variable [Crypto]

namespace Transaction

/-- A transaction that is made and then signed, with whatever key. -/
inductive Issued : Transaction → Prop where
  | transfer (chain : Bytes) (timestamp : Int64) (sender receiver : PublicKey)
      (nonce fee amount : Int64) (payload : Bytes) (seed : Seed) :
      Issued ((Transaction.transfer chain timestamp sender receiver nonce fee amount
        payload).sign seed)
  | note (chain : Bytes) (timestamp : Int64) (sender : PublicKey) (payload : Bytes)
      (seed : Seed) :
      Issued ((Transaction.note chain timestamp sender payload).sign seed)

/-- The transaction carries its hash, a version that its id gives back, and no
field that its encoding leaves out. -/
structure Settled (t : Transaction) : Prop where
  version : t.version ≠ .unknown 0
  hash : t.hash = some (Crypto.digest t.encode)
  unused : t.isTransfer = false →
    t.receiver = .zero ∧ t.nonce = 0 ∧ t.fee = 0 ∧ t.amount = 0

theorem Issued.settled {t : Transaction} (h : t.Issued) : t.Settled := by
  cases h with
  | transfer chain timestamp sender receiver nonce fee amount payload seed =>
    exact ⟨Version.noConfusion, rfl, fun hkind => absurd (show true = false from hkind) (by decide)⟩
  | note chain timestamp sender payload seed =>
    exact ⟨Version.noConfusion, rfl, fun _ => ⟨rfl, rfl, rfl, rfl⟩⟩

theorem stored_eq_self_iff {t : Transaction} : t.stored = t ↔ t.Settled := by
  rw [stored_eq]
  constructor
  · intro h
    have hencode : t.written.encode = t.encode := by
      rw [← t.encode_stored, stored_eq]
      rfl
    have hhash : some (Crypto.digest t.written.encode) = t.hash := congrArg Transaction.hash h
    have hversion : .ofId t.version.id = t.version := by
      rw [← version_stored, stored_eq]
      exact congrArg Transaction.version h
    refine ⟨Version.ofId_id_eq_iff.1 hversion, by rw [← hhash, hencode], fun hkind => ?_⟩
    rw [written, if_neg (by simp [hkind])] at h
    exact ⟨(congrArg Transaction.receiver h).symm, (congrArg Transaction.nonce h).symm,
      (congrArg Transaction.fee h).symm, (congrArg Transaction.amount h).symm⟩
  · intro h
    have hwritten : t.written = t := by
      rw [written, Version.ofId_id_eq_iff.2 h.version]
      split
      · rfl
      · next hkind =>
        cases t
        obtain ⟨rfl, rfl, rfl, rfl⟩ := h.unused (by simpa using hkind)
        rfl
    rw [hwritten, hashed, ← h.hash]

theorem decode_encode {t : Transaction} (h : t.Sized) : decode t.encode = .ok t.stored := by
  simp [decode, encode, stored, ((readable h).mono (by decide)).decode, Except.map]

theorem decode_encode_eq_iff {t : Transaction} (h : t.Sized) :
    decode t.encode = .ok t ↔ t.Settled := by
  rw [decode_encode h, Except.ok.injEq, stored_eq_self_iff]

end Transaction

namespace Block

theorem stored_eq_self_iff {b : Block} :
    b.stored = b ↔ b.version ≠ .unknown 0 ∧ b.transaction.Settled := by
  rw [stored_eq, ← Transaction.stored_eq_self_iff, ← Version.ofId_id_eq_iff]
  constructor
  · intro h
    exact ⟨congrArg (·.version) h, congrArg (·.transaction) h⟩
  · rintro ⟨hversion, htransaction⟩
    rw [hversion, htransaction]
    exact Block.ext rfl

theorem decode_encode_eq_iff {b : Block} (h : b.Sized) :
    decode b.encode = .ok b ↔ b.version ≠ .unknown 0 ∧ b.transaction.Settled := by
  rw [decode_encode h, Except.ok.injEq, stored_eq_self_iff]

end Block

/-- What is issued is read back as it was, with its hash, and so is every block
that holds it, unless its version is an unknown one with the id of the one in
force. Of the byte strings it is only asked that they fit in memory. -/
theorem decode_encode_issued :
    (∀ t : Transaction, t.Issued → t.Sized →
      Transaction.decode t.encode = .ok t ∧ t.hash = some (Crypto.digest t.encode)) ∧
    (∀ b : Block, b.transaction.Issued → b.version ≠ .unknown 0 → b.Sized →
      Block.decode b.encode = .ok b ∧
        b.transaction.hash = some (Crypto.digest b.transaction.encode)) :=
  ⟨fun _ h hsized => ⟨(Transaction.decode_encode_eq_iff hsized).2 h.settled, h.settled.hash⟩,
    fun _ h hversion hsized =>
      ⟨(Block.decode_encode_eq_iff hsized).2 ⟨hversion, h.settled⟩, h.settled.hash⟩⟩

end

section

attribute [local instance] checksum

theorem issued_payment : payment.transaction.Issued :=
  .transfer [0x61] 600 founder.key (.ofBytes (List.replicate 32 2)) 0 1 100 [] founder.seed

theorem decode_encode_payment :
    (payment.transaction.Issued ∧ payment.transaction.Sized ∧
      Transaction.decode payment.transaction.encode = .ok payment.transaction) ∧
    (payment.transaction.Issued ∧ payment.version ≠ .unknown 0 ∧ payment.Sized ∧
      Block.decode payment.encode = .ok payment) := by
  have hversion : payment.version ≠ .unknown 0 := Version.noConfusion
  have hsized : payment.Sized := by decide +kernel
  obtain ⟨htransaction, hblock⟩ := decode_encode_issued
  exact ⟨⟨issued_payment, hsized.transaction,
      (htransaction payment.transaction issued_payment hsized.transaction).1⟩,
    issued_payment, hversion, hsized, (hblock payment issued_payment hversion hsized).1⟩

end

end ChainState
