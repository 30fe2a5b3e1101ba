import ChainState.Proofs.Bencode.Grammar
import ChainState.Proofs.Bencode.SelfDelimiting
import ChainState.Proofs.Issued

/-!
# What is read and written again

Whatever bytes a transaction or a block was read from, it has a canonical form,
and this form is read again. That gives the value back if the encoding holds
all that the reader kept. It leaves out the fields of a transfer on a
transaction of another kind, and does not tell that a block came without a
transaction.
-/

set_option autoImplicit false

namespace ChainState

namespace Bencode

theorem SpellsLabel.length_lt {text : Bytes} {label : Label} (h : SpellsLabel text label) :
    label.bytes.length < sizeLimit := by
  cases h with
  | mk name hlength hsize => exact hsize

theorem Spells.readable {room : Nat} {text : Bytes} {v : Bencode} (h : Spells room text v) :
    v.Readable room := by
  induction h with
  | int h => exact ⟨trivial, trivial, Nat.zero_le _⟩
  | bytes hlength hsize => exact readable_bytes hsize _
  | list items h ih =>
    apply readable_list
    intro v hv
    obtain ⟨p, hp, rfl⟩ := List.mem_map.1 hv
    exact ih p hp
  | dict fields hlabel hvalue hkept ih =>
    rw [← keepsLast_iff.1 hkept]
    apply readable_record
    intro f hf
    obtain ⟨p, hp, rfl⟩ := List.mem_map.1 hf
    exact ⟨(hlabel p hp).length_lt, ih p hp⟩

theorem readable_of_decode {input : Bytes} {v : Bencode} (h : decode input = .ok v) :
    v.Readable maxDepth := by
  obtain ⟨w, c, hread, h⟩ := exists_of_bind h
  obtain ⟨text, htext, -⟩ := follows_value _ _ _ _ hread
  dsimp only at h
  split at h
  · obtain rfl := Except.ok.inj h
    exact htext.readable
  · cases h

theorem exists_readable {α : Type} {f : Bencode → α} {input : Bytes} {x : α}
    (h : (decode input).map f = .ok x) : ∃ v : Bencode, v.Readable maxDepth ∧ f v = x := by
  cases hv : decode input with
  | error e => simp [hv, Except.map] at h
  | ok v =>
    rw [hv] at h
    exact ⟨v, readable_of_decode hv, Except.ok.inj h⟩

theorem Readable.field {room : Nat} {v w : Bencode} {l : Label} (h : v.Readable room)
    (hw : v.field? l = some w) : w.Readable room := by
  cases v with
  | dict fields =>
    obtain ⟨⟨hsorted, hordered⟩, hsized, hdepth⟩ := h
    have hmem := (Ascending.find?_eq_some_iff hsorted).1 hw
    refine ⟨orderedFields_iff.1 hordered _ hmem, (sizedFields_iff.1 hsized _ hmem).2, ?_⟩
    have hbelow := depthFields_le_iff.1 (Nat.le_refl (depthFields fields)) _ hmem
    exact Nat.le_trans hbelow (Nat.le_of_succ_le hdepth)
  | int value => cases hw
  | bytes content => cases hw
  | list items => cases hw

theorem Readable.length_bytesAt {room : Nat} {v : Bencode} (h : v.Readable room) (l : Label) :
    (v.bytesAt l).length < sizeLimit := by
  have hempty : ([] : Bytes).length < sizeLimit := by decide
  unfold bytesAt bytesAt?
  cases hw : v.field? l with
  | none => exact hempty
  | some w =>
    cases w with
    | bytes content => exact (h.field hw).sized
    | _ => exact hempty

end Bencode

open Bencode

section

variable [Crypto]

namespace Transaction

def transferPart (t : Transaction) : PublicKey × Int64 × Int64 × Int64 :=
  (t.receiver, t.nonce, t.fee, t.amount)

/-- No transaction but a transfer carries the fields of one. -/
def Bare (t : Transaction) : Prop :=
  t.isTransfer = false → t.transferPart = blank.transferPart

theorem settled_iff {t : Transaction} :
    t.Settled ↔ t.version ≠ .unknown 0 ∧ t.hash = some (Crypto.digest t.encode) ∧ t.Bare := by
  have hpart : t.transferPart = blank.transferPart ↔
      t.receiver = .zero ∧ t.nonce = 0 ∧ t.fee = 0 ∧ t.amount = 0 := by
    simp [transferPart, blank]
  constructor
  · intro h
    exact ⟨h.version, h.hash, fun hkind => hpart.2 (h.unused hkind)⟩
  · rintro ⟨hversion, hhash, hbare⟩
    exact ⟨hversion, hhash, fun hkind => hpart.1 (hbare hkind)⟩

theorem sized_ofBencode {v : Bencode} {room : Nat} (h : v.Readable room) : (ofBencode v).Sized :=
  ⟨h.length_bytesAt _, h.length_bytesAt _⟩

theorem version_of_decode {input : Bytes} {t : Transaction} (h : decode input = .ok t) :
    t.version ≠ .unknown 0 := by
  obtain ⟨v, -, rfl⟩ := exists_readable h
  exact Version.ofId_ne _

theorem hash_ofBencode (v : Bencode) :
    (ofBencode v).hash = some (Crypto.digest (ofBencode v).encode) := rfl

theorem sized_of_decode {input : Bytes} {t : Transaction} (h : decode input = .ok t) :
    t.Sized := by
  obtain ⟨v, hv, rfl⟩ := exists_readable h
  exact sized_ofBencode hv

theorem stored_of_decode {t : Transaction} (h : decode t.encode = .ok t) : t.stored = t := by
  rw [decode_encode (sized_of_decode h)] at h
  exact Except.ok.inj h

theorem hash_of_decode {input : Bytes} {t : Transaction} (h : decode input = .ok t) :
    t.hash = some (Crypto.digest t.encode) := by
  obtain ⟨v, -, rfl⟩ := exists_readable h
  exact hash_ofBencode v

theorem decode_encode_of_decode {input : Bytes} {t : Transaction} (h : decode input = .ok t) :
    decode t.encode = .ok t ↔ t.Bare := by
  rw [decode_encode_eq_iff (sized_of_decode h), settled_iff, and_iff_right (version_of_decode h),
    and_iff_right (hash_of_decode h)]

theorem eq_stored_with {t : Transaction} (hv : t.version ≠ .unknown 0) :
    t = { t.stored with
      receiver := t.receiver, nonce := t.nonce, fee := t.fee, amount := t.amount,
      hash := t.hash } := by
  rw [stored_eq, written, Version.ofId_id_eq_iff.2 hv]
  split <;> rfl

theorem transferPart_stored {t : Transaction} (h : t.isTransfer = true) :
    t.stored.transferPart = t.transferPart := by
  rw [stored_transfer h]
  rfl

theorem stored_eq_of_encode_eq {t u : Transaction} (h : t.encode = u.encode) :
    t.stored = u.stored := by
  rw [stored, render_injective h, stored]

theorem eq_iff_of_encode_eq {t u : Transaction} (ht : t.version ≠ .unknown 0)
    (hu : u.version ≠ .unknown 0) (h : t.encode = u.encode) :
    t = u ↔ t.hash = u.hash ∧ (t.isTransfer = false → t.transferPart = u.transferPart) := by
  constructor
  · rintro rfl
    exact ⟨rfl, fun _ => rfl⟩
  · rintro ⟨hhash, hpart⟩
    have hstored := stored_eq_of_encode_eq h
    have hsame : t.transferPart = u.transferPart := by
      cases hkind : t.isTransfer with
      | false => exact hpart hkind
      | true =>
        have hkind' : u.isTransfer = true := by
          rw [← isTransfer_stored, ← hstored, isTransfer_stored, hkind]
        rw [← transferPart_stored hkind, hstored, transferPart_stored hkind']
    simp only [transferPart, Prod.mk.injEq] at hsame
    obtain ⟨hreceiver, hnonce, hfee, hamount⟩ := hsame
    rw [eq_stored_with ht, eq_stored_with hu, hstored, hhash, hreceiver, hnonce, hfee, hamount]

end Transaction

namespace Block

theorem transaction_ofBencode (v : Bencode) : (ofBencode v).transaction = .blank ∨
    ∃ w, v.field? (.ascii ['x']) = some w ∧ (ofBencode v).transaction = .ofBencode w := by
  cases hx : v.field? (.ascii ['x']) with
  | none => exact .inl (by simp [ofBencode, hx])
  | some w => exact .inr ⟨w, rfl, by simp [ofBencode, hx]⟩

theorem sized_ofBencode {v : Bencode} {room : Nat} (h : v.Readable room) : (ofBencode v).Sized := by
  refine ⟨h.length_bytesAt _, ?_⟩
  rcases transaction_ofBencode v with ht | ⟨w, hw, ht⟩
  · rw [ht]
    exact ⟨by decide, by decide⟩
  · rw [ht]
    exact Transaction.sized_ofBencode (h.field hw)

theorem sized_of_decode {input : Bytes} {b : Block} (h : decode input = .ok b) : b.Sized := by
  obtain ⟨v, hv, rfl⟩ := exists_readable h
  exact sized_ofBencode hv

theorem stored_of_decode {b : Block} (h : decode b.encode = .ok b) : b.stored = b := by
  rw [decode_encode (sized_of_decode h)] at h
  exact Except.ok.inj h

theorem version_of_decode {input : Bytes} {b : Block} (h : decode input = .ok b) :
    b.version ≠ .unknown 0 ∧ b.transaction.version ≠ .unknown 0 := by
  obtain ⟨v, -, rfl⟩ := exists_readable h
  refine ⟨Version.ofId_ne _, ?_⟩
  rcases transaction_ofBencode v with ht | ⟨w, -, ht⟩
  · rw [ht]
    exact Version.noConfusion
  · rw [ht]
    exact Version.ofId_ne _

theorem hash_transaction_of_decode {input : Bytes} {b : Block} (h : decode input = .ok b) :
    b.transaction.hash = none ∨
      b.transaction.hash = some (Crypto.digest b.transaction.encode) := by
  obtain ⟨v, -, rfl⟩ := exists_readable h
  rcases transaction_ofBencode v with ht | ⟨w, -, ht⟩
  · exact .inl (by rw [ht]; rfl)
  · exact .inr (by rw [ht]; exact Transaction.hash_ofBencode w)

theorem decode_encode_of_decode {input : Bytes} {b : Block} (h : decode input = .ok b) :
    decode b.encode = .ok b ↔ b.transaction.hash ≠ none ∧ b.transaction.Bare := by
  obtain ⟨hversion, htransaction⟩ := version_of_decode h
  rw [decode_encode_eq_iff (sized_of_decode h), Transaction.settled_iff, and_iff_right hversion,
    and_iff_right htransaction]
  rcases hash_transaction_of_decode h with hhash | hhash <;> simp [hhash]

theorem toContent_eq {b : Block} (hv : b.version ≠ .unknown 0) :
    b.toContent = { b.stored.toContent with transaction := b.transaction } := by
  rw [stored_eq, Version.ofId_id_eq_iff.2 hv]
  rfl

/-- Blocks of one encoding differ at most in their transactions. -/
theorem eq_iff_of_stored_eq {b c : Block} (hb : b.version ≠ .unknown 0)
    (hc : c.version ≠ .unknown 0) (h : b.stored = c.stored) :
    b = c ↔ b.transaction = c.transaction := by
  constructor
  · exact fun h => h ▸ rfl
  · intro ht
    apply Block.ext
    rw [toContent_eq hb, toContent_eq hc, h, ht]

theorem encode_transaction_of_stored_eq {b c : Block} (h : b.stored = c.stored) :
    b.transaction.encode = c.transaction.encode := by
  rw [← Transaction.encode_stored, ← transaction_stored, h, transaction_stored,
    Transaction.encode_stored]

end Block

/-- What has been read is read back as it is just if it carries nothing that
its encoding leaves out. Two values with one hash, where the digest tells their
encodings apart, are equal just if they agree in what these leave out. -/
theorem decode_encode_received :
    (∀ (input : Bytes) (t : Transaction), Transaction.decode input = .ok t →
      (Transaction.decode t.encode = .ok t ↔ t.Bare)) ∧
    (∀ (input : Bytes) (b : Block), Block.decode input = .ok b →
      (Block.decode b.encode = .ok b ↔ b.transaction.hash ≠ none ∧ b.transaction.Bare)) ∧
    (∀ (input input' : Bytes) (t u : Transaction),
      Transaction.decode input = .ok t → Transaction.decode input' = .ok u →
      (Crypto.digest t.encode = Crypto.digest u.encode → t.encode = u.encode) →
      t.hash = u.hash → (t = u ↔ (t.isTransfer = false → t.transferPart = u.transferPart))) ∧
    (∀ (input input' : Bytes) (b c : Block),
      Block.decode input = .ok b → Block.decode input' = .ok c →
      (Crypto.digest b.encode = Crypto.digest c.encode → b.encode = c.encode) →
      b.hash = c.hash →
      (b = c ↔ (b.transaction.hash = none ↔ c.transaction.hash = none) ∧
        (b.transaction.isTransfer = false →
          b.transaction.transferPart = c.transaction.transferPart))) := by
  refine ⟨fun _ _ => Transaction.decode_encode_of_decode, fun _ _ => Block.decode_encode_of_decode,
    fun _ _ t u ht hu hinj hhash => ?_, fun _ _ b c hb hc hinj hhash => ?_⟩
  · have hdigest := hhash
    rw [Transaction.hash_of_decode ht, Transaction.hash_of_decode hu, Option.some.injEq] at hdigest
    rw [Transaction.eq_iff_of_encode_eq (Transaction.version_of_decode ht)
      (Transaction.version_of_decode hu) (hinj hdigest), and_iff_right hhash]
  · rw [b.hash_eq, c.hash_eq] at hhash
    obtain ⟨hvb, htb⟩ := Block.version_of_decode hb
    obtain ⟨hvc, htc⟩ := Block.version_of_decode hc
    have hstored := Block.stored_eq_of_encode_eq (Block.sized_of_decode hb)
      (Block.sized_of_decode hc) (hinj hhash)
    have hencode := Block.encode_transaction_of_stored_eq hstored
    have hsame : b.transaction.hash = c.transaction.hash ↔
        (b.transaction.hash = none ↔ c.transaction.hash = none) := by
      rcases Block.hash_transaction_of_decode hb with hb | hb <;>
        rcases Block.hash_transaction_of_decode hc with hc | hc <;> simp [hb, hc, hencode]
    rw [Block.eq_iff_of_stored_eq hvb hvc hstored,
      Transaction.eq_iff_of_encode_eq htb htc hencode, hsame]

end

section

attribute [local instance] checksum

def fundedNote : Bencode :=
  .record [
    (.ascii ['a'], .bytes (.ofInt64 5)),
    (.ascii ['e'], .bytes (.ofInt32 TransactionKind.note.id)),
    (.ascii ['i'], .bytes [0x61])]

def receivedNote (amount : Int64) : Transaction :=
  Transaction.hashed { Transaction.note [0x61] 0 .zero [] with amount }

def carrier (t : Transaction) : Block :=
  .hashed { (Block.ofBencode (.record [])).toContent with transaction := t }

theorem decode_encode_received_note :
    (Transaction.decode fundedNote.render = .ok (receivedNote 5) ∧
      Transaction.decode (receivedNote 5).encode ≠ .ok (receivedNote 5)) ∧
    (Block.decode payment.encode = .ok payment ∧ payment.transaction.Bare) ∧
    (Transaction.decode (receivedNote 5).encode = .ok (receivedNote 0) ∧
      (receivedNote 5).hash = (receivedNote 0).hash ∧ receivedNote 5 ≠ receivedNote 0) ∧
    (Block.decode (Bencode.record []).render = .ok (carrier .blank) ∧
      Block.decode (carrier .blank).encode = .ok (carrier Transaction.blank.hashed) ∧
      (carrier .blank).hash = (carrier Transaction.blank.hashed).hash ∧
      carrier .blank ≠ carrier Transaction.blank.hashed) := by
  have hnote : Transaction.decode fundedNote.render = .ok (receivedNote 5) := by decide +kernel
  have hagain : Transaction.decode (receivedNote 5).encode = .ok (receivedNote 0) := by
    decide +kernel
  have hpayment : Block.decode payment.encode = .ok payment := by decide +kernel
  have hmissing : Block.decode (Bencode.record []).render = .ok (carrier .blank) := by
    decide +kernel
  have hfilled : Block.decode (carrier .blank).encode = .ok (carrier Transaction.blank.hashed) := by
    decide +kernel
  have hhash : (receivedNote 5).hash = (receivedNote 0).hash := by decide +kernel
  have hhash' : (carrier .blank).hash = (carrier Transaction.blank.hashed).hash := by
    decide +kernel
  obtain ⟨transactions, blocks, sameTransactions, sameBlocks⟩ := decode_encode_received
  refine ⟨⟨hnote, fun h => ?_⟩, ⟨hpayment, ((blocks _ _ hpayment).1 hpayment).2⟩,
    ⟨hagain, hhash, fun h => ?_⟩, ⟨hmissing, hfilled, hhash', fun h => ?_⟩⟩
  · exact absurd ((transactions _ _ hnote).1 h rfl) (by decide)
  · have hinj : Crypto.digest (receivedNote 5).encode = Crypto.digest (receivedNote 0).encode →
        (receivedNote 5).encode = (receivedNote 0).encode := fun _ => by decide +kernel
    exact absurd ((sameTransactions _ _ _ _ hnote hagain hinj hhash).1 h rfl) (by decide)
  · have hinj : Crypto.digest (carrier .blank).encode =
          Crypto.digest (carrier Transaction.blank.hashed).encode →
        (carrier .blank).encode = (carrier Transaction.blank.hashed).encode :=
      fun _ => by decide +kernel
    exact absurd ((sameBlocks _ _ _ _ hmissing hfilled hinj hhash').1 h).1 (by decide)

/-- The note is read with its amount, and again without it, under one hash. A
block read without a transaction has one with a hash when it is read again. -/
theorem decode_encode_fundedNote :
    (∃ t u : Transaction, Transaction.decode fundedNote.render = .ok t ∧
      Transaction.decode t.encode = .ok u ∧
      t.hash = u.hash ∧ t.amount = 5 ∧ u.amount = 0 ∧ t ≠ u) ∧
    (∃ b c : Block, Block.decode (Bencode.record []).render = .ok b ∧
      Block.decode b.encode = .ok c ∧
      b.hash = c.hash ∧ b.transaction.hash = none ∧ c.transaction.hash ≠ none ∧ b ≠ c) := by
  refine ⟨⟨receivedNote 5, receivedNote 0, ?_⟩, carrier .blank,
    carrier Transaction.blank.hashed, ?_⟩
  · decide +kernel
  · decide +kernel

end

end ChainState
