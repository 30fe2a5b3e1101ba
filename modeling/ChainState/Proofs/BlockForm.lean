import ChainState.Block
import ChainState.Proofs.Records

/-!
# The stored form of a block

A block that is written and read back keeps its bytes, and so its hash. What
may change is confined to the transaction: a note forgets the fields that only
transfers write, and a transaction that was never signed gets its hash. None
of this is seen by the rules of a chain.
-/

set_option autoImplicit false

namespace ChainState

open Bencode

namespace Bencode

theorem bytesAt_of_field? {v : Bencode} {l : Label} {content : Bytes}
    (h : v.field? l = some (.bytes content)) : v.bytesAt l = content := by
  simp [bytesAt, bytesAt?, bytes?, h]

theorem bytesAt_of_absent {v : Bencode} {l : Label} (h : v.field? l = none) :
    v.bytesAt l = [] := by
  simp [bytesAt, bytesAt?, h]

end Bencode

namespace Transaction

def transferLabels : List Label :=
  [.ascii ['i'], .ascii ['v'], .ascii ['e'], .ascii ['t'], .ascii ['s'], .ascii ['r'],
    .ascii ['n'], .ascii ['f'], .ascii ['a'], .ascii ['p'], .ascii ['s', 'i', 'g']]

def noteLabels : List Label :=
  [.ascii ['i'], .ascii ['v'], .ascii ['e'], .ascii ['t'], .ascii ['s'], .ascii ['p'],
    .ascii ['s', 'i', 'g']]

def signedFields (t : Transaction) : List (Label × Bencode) :=
  t.fields ++ [signatureField t.signature]

theorem labels_eq (t : Transaction) :
    t.signedFields.map (·.1) = if t.isTransfer then transferLabels else noteLabels := by
  by_cases h : t.isTransfer = true <;>
    simp [signedFields, fields, transferFields, signatureField, transferLabels, noteLabels, h]

theorem labels_nodup (t : Transaction) : (t.signedFields.map (·.1)).Nodup := by
  rw [labels_eq]
  split <;> decide

theorem bytesAt_of_mem {t : Transaction} {l : Label} {content : Bytes}
    (h : (l, .bytes content) ∈ t.signedFields) : t.toBencode.bytesAt l = content := by
  obtain ⟨i, hi⟩ := List.getElem?_of_mem h
  exact bytesAt_of_field? (field?_record rfl t.labels_nodup i hi)

structure Sized (t : Transaction) : Prop where
  chain : t.chain.length < sizeLimit
  payload : t.payload.length < sizeLimit

instance (t : Transaction) : Decidable t.Sized :=
  decidable_of_iff (t.chain.length < sizeLimit ∧ t.payload.length < sizeLimit)
    ⟨fun h => ⟨h.1, h.2⟩, fun h => ⟨h.chain, h.payload⟩⟩

theorem readable {t : Transaction} (h : t.Sized) : t.toBencode.Readable 1 := by
  have hnumber (n : Int64) : (Bencode.bytes (.ofInt64 n)).Readable 0 :=
    readable_bytes (by rw [Bytes.length_ofInt64]; decide) 0
  have hversion (n : Int32) : (Bencode.bytes (.ofInt32 n)).Readable 0 :=
    readable_bytes (by rw [Bytes.length_ofInt32]; decide) 0
  refine readable_record fun f hf => ?_
  simp only [fields, transferFields, signatureField, List.mem_append, List.mem_cons,
    List.not_mem_nil, or_false] at hf
  rcases hf with (((rfl | rfl | rfl | rfl | rfl) | hf) | rfl) | rfl
  · exact ⟨length_ascii_lt (by decide), readable_bytes h.chain 0⟩
  · exact ⟨length_ascii_lt (by decide), hversion _⟩
  · exact ⟨length_ascii_lt (by decide), hversion _⟩
  · exact ⟨length_ascii_lt (by decide), hnumber _⟩
  · exact ⟨length_ascii_lt (by decide), readable_bytes t.sender.length_lt 0⟩
  · split at hf
    · simp only [List.mem_cons, List.not_mem_nil, or_false] at hf
      rcases hf with rfl | rfl | rfl | rfl
      · exact ⟨length_ascii_lt (by decide), readable_bytes t.receiver.length_lt 0⟩
      · exact ⟨length_ascii_lt (by decide), hnumber _⟩
      · exact ⟨length_ascii_lt (by decide), hnumber _⟩
      · exact ⟨length_ascii_lt (by decide), hnumber _⟩
    · cases hf
  · exact ⟨length_ascii_lt (by decide), readable_bytes h.payload 0⟩
  · exact ⟨length_ascii_lt (by decide), readable_bytes t.signature.length_lt 0⟩

/-- The transaction without what its encoding leaves out. Of the version it
holds the id alone. -/
def written (t : Transaction) : Transaction :=
  if t.isTransfer then { t with version := .ofId t.version.id }
  else
    { t with
      version := .ofId t.version.id, receiver := .zero, nonce := 0, fee := 0, amount := 0 }

@[simp] theorem isTransfer_written (t : Transaction) : t.written.isTransfer = t.isTransfer := by
  unfold written
  split <;> rfl

theorem fields_written (t : Transaction) : t.written.fields = t.fields := by
  unfold written
  split <;> simp_all [fields, transferFields, isTransfer]

variable [Crypto]

/-- What is read back after a transaction has been written. -/
def stored (t : Transaction) : Transaction := ofBencode t.toBencode

theorem stored_eq (t : Transaction) : t.stored = t.written.hashed := by
  have hi : t.toBencode.bytesAt (.ascii ['i']) = t.chain :=
    bytesAt_of_mem (by simp [signedFields, fields])
  have hv : t.toBencode.bytesAt (.ascii ['v']) = .ofInt32 t.version.id :=
    bytesAt_of_mem (by simp [signedFields, fields])
  have he : t.toBencode.bytesAt (.ascii ['e']) = .ofInt32 t.kind.id :=
    bytesAt_of_mem (by simp [signedFields, fields])
  have ht : t.toBencode.bytesAt (.ascii ['t']) = .ofInt64 t.timestamp :=
    bytesAt_of_mem (by simp [signedFields, fields])
  have hs : t.toBencode.bytesAt (.ascii ['s']) = t.sender.bytes :=
    bytesAt_of_mem (by simp [signedFields, fields])
  have hp : t.toBencode.bytesAt (.ascii ['p']) = t.payload :=
    bytesAt_of_mem (by simp [signedFields, fields])
  have hsig : t.toBencode.bytesAt (.ascii ['s', 'i', 'g']) = t.signature.bytes :=
    bytesAt_of_mem (by simp [signedFields, signatureField])
  rw [stored, ofBencode, written]
  simp only [int32At, int64At, hi, hv, he, ht, hs, hp, hsig, Bytes.toInt32_ofInt32,
    Bytes.toInt64_ofInt64, FixedBytes.ofBytes_bytes]
  split
  · next h =>
    have hr : t.toBencode.bytesAt (.ascii ['r']) = t.receiver.bytes :=
      bytesAt_of_mem (by simp [signedFields, fields, transferFields, h])
    have hn : t.toBencode.bytesAt (.ascii ['n']) = .ofInt64 t.nonce :=
      bytesAt_of_mem (by simp [signedFields, fields, transferFields, h])
    have hf : t.toBencode.bytesAt (.ascii ['f']) = .ofInt64 t.fee :=
      bytesAt_of_mem (by simp [signedFields, fields, transferFields, h])
    have ha : t.toBencode.bytesAt (.ascii ['a']) = .ofInt64 t.amount :=
      bytesAt_of_mem (by simp [signedFields, fields, transferFields, h])
    simp only [hr, hn, hf, ha, Bytes.toInt64_ofInt64, FixedBytes.ofBytes_bytes]
    rfl
  · next h =>
    have absent {l : Label} (hl : l ∉ noteLabels) : t.toBencode.bytesAt l = [] :=
      bytesAt_of_absent (field?_record_of_not_mem (by
        rw [← signedFields, labels_eq, if_neg h]
        exact hl))
    have hr : t.toBencode.bytesAt (.ascii ['r']) = [] := absent (by decide)
    have hn : t.toBencode.bytesAt (.ascii ['n']) = [] := absent (by decide)
    have hf : t.toBencode.bytesAt (.ascii ['f']) = [] := absent (by decide)
    have ha : t.toBencode.bytesAt (.ascii ['a']) = [] := absent (by decide)
    rw [hr, hn, hf, ha]
    rfl

@[simp] theorem isTransfer_stored (t : Transaction) : t.stored.isTransfer = t.isTransfer := by
  rw [stored_eq]
  exact t.isTransfer_written

theorem fields_stored (t : Transaction) : t.stored.fields = t.fields := by
  rw [stored_eq]
  exact t.fields_written

theorem signature_stored (t : Transaction) : t.stored.signature = t.signature := by
  rw [stored_eq, written]
  split <;> rfl

theorem toBencode_stored (t : Transaction) : t.stored.toBencode = t.toBencode := by
  rw [toBencode, fields_stored, signature_stored, toBencode]

@[simp] theorem encode_stored (t : Transaction) : t.stored.encode = t.encode := by
  rw [encode, toBencode_stored, encode]

@[simp] theorem stored_stored (t : Transaction) : t.stored.stored = t.stored := by
  rw [stored, toBencode_stored, stored]

theorem stored_transfer {t : Transaction} (h : t.isTransfer = true) :
    t.stored = { t with version := .ofId t.version.id }.hashed := by
  rw [stored_eq, written, if_pos h]

theorem version_stored (t : Transaction) : t.stored.version = .ofId t.version.id := by
  rw [stored_eq, written]
  split <;> rfl

@[simp] theorem sender_stored (t : Transaction) : t.stored.sender = t.sender := by
  rw [stored_eq, written]
  split <;> rfl

theorem receiver_stored {t : Transaction} (h : t.isTransfer = true) :
    t.stored.receiver = t.receiver := by
  rw [stored_transfer h]
  rfl

end Transaction

variable [Crypto]

namespace Block

def signedFields (b : Block) : List (Label × Bencode) :=
  b.fields ++ [Transaction.signatureField b.signature]

theorem labels_nodup (b : Block) : (b.signedFields.map (·.1)).Nodup := by
  have h : ([['v'], ['i'], ['t'], ['n'], ['h'], ['b'], ['d'], ['g'], ['x'], ['m'], ['m', 'b'],
      ['m', 'n'], ['s', 'b'], ['s', 'n'], ['r', 'b'], ['r', 'n'],
      ['s', 'i', 'g']].map Label.ascii).Nodup := by decide
  exact h

theorem field?_of_mem {b : Block} {l : Label} {v : Bencode} (h : (l, v) ∈ b.signedFields) :
    b.toBencode.field? l = some v := by
  obtain ⟨i, hi⟩ := List.getElem?_of_mem h
  exact field?_record rfl b.labels_nodup i hi

theorem bytesAt_of_mem {b : Block} {l : Label} {content : Bytes}
    (h : (l, .bytes content) ∈ b.signedFields) : b.toBencode.bytesAt l = content :=
  bytesAt_of_field? (field?_of_mem h)

/-- The byte strings that the block holds are ones that fit in memory. -/
structure Sized (b : Block) : Prop where
  chain : b.chain.length < sizeLimit
  transaction : b.transaction.Sized

instance (b : Block) : Decidable b.Sized :=
  decidable_of_iff (b.chain.length < sizeLimit ∧ b.transaction.Sized)
    ⟨fun h => ⟨h.1, h.2⟩, fun h => ⟨h.chain, h.transaction⟩⟩

theorem readable {b : Block} (h : b.Sized) : b.toBencode.Readable 2 := by
  have hnumber (n : Int64) : (Bencode.bytes (.ofInt64 n)).Readable 1 :=
    readable_bytes (by rw [Bytes.length_ofInt64]; decide) 1
  have hword (n : UInt64) : (Bencode.bytes (.ofUInt64 n)).Readable 1 :=
    readable_bytes (by rw [Bytes.length_ofUInt64]; decide) 1
  have hversion : (Bencode.bytes (.ofInt32 b.version.id)).Readable 1 :=
    readable_bytes (by rw [Bytes.length_ofInt32]; decide) 1
  refine readable_record fun f hf => ?_
  simp only [Content.fields, Transaction.signatureField, List.cons_append, List.nil_append,
    List.mem_cons, List.not_mem_nil, or_false] at hf
  rcases hf with rfl | rfl | rfl | rfl | rfl | rfl | rfl | rfl | rfl | rfl | rfl | rfl | rfl |
    rfl | rfl | rfl | rfl <;> refine ⟨length_ascii_lt (by decide), ?_⟩
  · exact hversion
  · exact readable_bytes h.chain 1
  · exact hnumber _
  · exact hnumber _
  · exact readable_bytes b.parent.length_lt 1
  · exact hword _
  · exact hword _
  · exact readable_bytes b.generationSignature.length_lt 1
  · exact Transaction.readable h.transaction
  · exact readable_bytes b.miner.length_lt 1
  iterate 6 exact hnumber _
  · exact readable_bytes b.signature.length_lt 1

/-- What is read back after a block has been written. -/
def stored (b : Block) : Block := ofBencode b.toBencode

theorem stored_eq (b : Block) : b.stored = hashed { b.toContent with
    version := .ofId b.version.id, transaction := b.transaction.stored } := by
  have hx : b.toBencode.field? (.ascii ['x']) = some b.transaction.toBencode :=
    field?_of_mem (by simp [signedFields, Content.fields])
  have hv : b.toBencode.bytesAt (.ascii ['v']) = .ofInt32 b.version.id :=
    bytesAt_of_mem (by simp [signedFields, Content.fields])
  have hi : b.toBencode.bytesAt (.ascii ['i']) = b.chain :=
    bytesAt_of_mem (by simp [signedFields, Content.fields])
  have ht : b.toBencode.bytesAt (.ascii ['t']) = .ofInt64 b.timestamp :=
    bytesAt_of_mem (by simp [signedFields, Content.fields])
  have hn : b.toBencode.bytesAt (.ascii ['n']) = .ofInt64 b.height :=
    bytesAt_of_mem (by simp [signedFields, Content.fields])
  have hh : b.toBencode.bytesAt (.ascii ['h']) = b.parent.bytes :=
    bytesAt_of_mem (by simp [signedFields, Content.fields])
  have hb : b.toBencode.bytesAt (.ascii ['b']) = .ofUInt64 b.baseTarget :=
    bytesAt_of_mem (by simp [signedFields, Content.fields])
  have hd : b.toBencode.bytesAt (.ascii ['d']) = .ofUInt64 b.cumulativeDifficulty :=
    bytesAt_of_mem (by simp [signedFields, Content.fields])
  have hg : b.toBencode.bytesAt (.ascii ['g']) = b.generationSignature.bytes :=
    bytesAt_of_mem (by simp [signedFields, Content.fields])
  have hm : b.toBencode.bytesAt (.ascii ['m']) = b.miner.bytes :=
    bytesAt_of_mem (by simp [signedFields, Content.fields])
  have hmb : b.toBencode.bytesAt (.ascii ['m', 'b']) = .ofInt64 b.states.miner.balance :=
    bytesAt_of_mem (by simp [signedFields, Content.fields])
  have hmn : b.toBencode.bytesAt (.ascii ['m', 'n']) = .ofInt64 b.states.miner.nonce :=
    bytesAt_of_mem (by simp [signedFields, Content.fields])
  have hsb : b.toBencode.bytesAt (.ascii ['s', 'b']) = .ofInt64 b.states.sender.balance :=
    bytesAt_of_mem (by simp [signedFields, Content.fields])
  have hsn : b.toBencode.bytesAt (.ascii ['s', 'n']) = .ofInt64 b.states.sender.nonce :=
    bytesAt_of_mem (by simp [signedFields, Content.fields])
  have hrb : b.toBencode.bytesAt (.ascii ['r', 'b']) = .ofInt64 b.states.receiver.balance :=
    bytesAt_of_mem (by simp [signedFields, Content.fields])
  have hrn : b.toBencode.bytesAt (.ascii ['r', 'n']) = .ofInt64 b.states.receiver.nonce :=
    bytesAt_of_mem (by simp [signedFields, Content.fields])
  have hsig : b.toBencode.bytesAt (.ascii ['s', 'i', 'g']) = b.signature.bytes :=
    bytesAt_of_mem (by simp [signedFields, Transaction.signatureField])
  apply Block.ext
  simp only [stored, ofBencode, int32At, int64At, uint64At, hx, hv, hi, ht, hn, hh, hb, hd, hg, hm,
    hmb, hmn, hsb, hsn, hrb, hrn, hsig, Bytes.toInt32_ofInt32, Bytes.toInt64_ofInt64,
    Bytes.toUInt64_ofUInt64, FixedBytes.ofBytes_bytes]
  rfl

theorem decode_encode {b : Block} (h : b.Sized) : decode b.encode = .ok b.stored := by
  simp [decode, Content.encode, stored, ((readable h).mono (by decide)).decode, Except.map]

@[simp] theorem chain_stored (b : Block) : b.stored.chain = b.chain := by
  rw [stored_eq, hashed]

@[simp] theorem height_stored (b : Block) : b.stored.height = b.height := by
  rw [stored_eq, hashed]

@[simp] theorem parent_stored (b : Block) : b.stored.parent = b.parent := by
  rw [stored_eq, hashed]

@[simp] theorem miner_stored (b : Block) : b.stored.miner = b.miner := by
  rw [stored_eq, hashed]

@[simp] theorem states_stored (b : Block) : b.stored.states = b.states := by
  rw [stored_eq, hashed]

@[simp] theorem transaction_stored (b : Block) :
    b.stored.transaction = b.transaction.stored := by
  rw [stored_eq, hashed]

theorem toBencode_stored (b : Block) : b.stored.toBencode = b.toBencode := by
  rw [stored_eq]
  simp [hashed, Content.toBencode, Content.fields, Transaction.toBencode_stored]

@[simp] theorem encode_stored (b : Block) : b.stored.encode = b.encode := by
  rw [Content.encode, toBencode_stored, Content.encode]

@[simp] theorem hash_stored (b : Block) : b.stored.hash = b.hash := by
  rw [hash_eq, encode_stored, hash_eq]

@[simp] theorem stored_stored (b : Block) : b.stored.stored = b.stored := by
  rw [stored, toBencode_stored, stored]

theorem stored_eq_of_encode_eq {a b : Block} (ha : a.Sized) (hb : b.Sized)
    (h : a.encode = b.encode) : a.stored = b.stored := by
  have hd := decode_encode ha
  rw [h, decode_encode hb] at hd
  exact (Except.ok.inj hd).symm

@[simp] theorem affected_stored (b : Block) : b.stored.affected = b.affected := by
  unfold affected
  by_cases h : b.transaction.isTransfer = true
  · simp [h, Transaction.receiver_stored h]
  · simp [h]

@[simp] theorem holding?_stored (b : Block) (pk : PublicKey) :
    b.stored.holding? pk = b.holding? pk := by
  unfold holding?
  by_cases h : b.transaction.isTransfer = true
  · simp [h, Transaction.receiver_stored h]
  · simp [h]

theorem sized_stored {b : Block} (h : b.Sized) : b.stored.Sized := by
  refine ⟨by simpa using h.chain, ?_⟩
  rw [transaction_stored, Transaction.stored_eq, Transaction.written]
  split
  · exact ⟨h.transaction.chain, h.transaction.payload⟩
  · exact ⟨h.transaction.chain, h.transaction.payload⟩

end Block

-- nothing below reads the stored form but through the lemmas above
attribute [irreducible] Block.stored

end ChainState
