import ChainState.Proofs.Bencode.SelfDelimiting
import ChainState.Proofs.BestChain

/-!
# What a signature covers

A signature covers the canonical form of a record without the signature. No
two contents share that form: a record with distinct labels gives each field
back, and a field of fixed width determines its number. Blocks alone hold a
transaction and signed records alone hold a signature, so the forms of
different kinds are apart as well.
-/

set_option autoImplicit false

namespace ChainState

open Bencode

namespace Bencode

variable {fs gs : List (Label × Bencode)}

theorem mem_of_record_eq (hf : (fs.map (·.1)).Nodup) (h : record fs = record gs)
    {f : Label × Bencode} (hmem : f ∈ fs) : f ∈ gs := by
  obtain ⟨i, hi⟩ := List.getElem?_of_mem hmem
  have hfound := field?_record rfl hf i hi
  rw [h] at hfound
  have hentry := (Ascending.find?_eq_some_iff (sorted_foldl_insert gs [] .nil)).1 hfound
  simpa using mem_foldl_insert hentry

theorem nodup_of_append_field {f : Label × Bencode} (h : ((fs ++ [f]).map (·.1)).Nodup) :
    (fs.map (·.1)).Nodup ∧ f.1 ∉ fs.map (·.1) := by
  rw [List.map_append, List.nodup_append] at h
  exact ⟨h.1, fun hmem => h.2.2 _ hmem _ (by simp) rfl⟩

theorem render_record_ne (hf : (fs.map (·.1)).Nodup) {l : Label} (hl : l ∈ fs.map (·.1))
    (hg : l ∉ gs.map (·.1)) : (record fs).render ≠ (record gs).render := by
  intro h
  obtain ⟨f, hmem, rfl⟩ := List.mem_map.1 hl
  exact hg (List.mem_map_of_mem (mem_of_record_eq hf (render_injective h) hmem))

def Agree (fs gs : List (Label × Bencode)) : Prop :=
  ∀ (l : Label) {v w : Bencode}, (l, v) ∈ fs → (l, w) ∈ gs → v = w

theorem agree_of_record_eq (hf : (fs.map (·.1)).Nodup) (hg : (gs.map (·.1)).Nodup)
    (h : record fs = record gs) : Agree fs gs := by
  intro l v w hv hw
  have hfield := List.inj_on_of_nodup_map hg (mem_of_record_eq hf h hv) hw rfl
  exact (Prod.mk.inj hfield).2

namespace Agree

theorem bytes (h : Agree fs gs) (l : Label) {a b : Bytes} (ha : (l, .bytes a) ∈ fs)
    (hb : (l, .bytes b) ∈ gs) : a = b :=
  Bencode.bytes.inj (h l ha hb)

theorem int32 (h : Agree fs gs) (l : Label) {m n : Int32}
    (hm : (l, .bytes (.ofInt32 m)) ∈ fs) (hn : (l, .bytes (.ofInt32 n)) ∈ gs) : m = n :=
  Function.LeftInverse.injective Bytes.toInt32_ofInt32 (h.bytes l hm hn)

theorem int64 (h : Agree fs gs) (l : Label) {m n : Int64}
    (hm : (l, .bytes (.ofInt64 m)) ∈ fs) (hn : (l, .bytes (.ofInt64 n)) ∈ gs) : m = n :=
  Function.LeftInverse.injective Bytes.toInt64_ofInt64 (h.bytes l hm hn)

theorem uint64 (h : Agree fs gs) (l : Label) {m n : UInt64}
    (hm : (l, .bytes (.ofUInt64 m)) ∈ fs) (hn : (l, .bytes (.ofUInt64 n)) ∈ gs) : m = n :=
  Function.LeftInverse.injective Bytes.toUInt64_ofUInt64 (h.bytes l hm hn)

theorem fixed {role : Role} (h : Agree fs gs) (l : Label) {x y : FixedBytes role}
    (hx : (l, .bytes x.bytes) ∈ fs) (hy : (l, .bytes y.bytes) ∈ gs) : x = y :=
  FixedBytes.ext (h.bytes l hx hy)

end Agree

end Bencode

namespace Transaction

/-- Both say the same, whoever signed them. What a note leaves out does not
count, and of the versions only the ids do. -/
structure SameTerms (t u : Transaction) : Prop where
  chain : t.chain = u.chain
  version : t.version.id = u.version.id
  kind : t.kind = u.kind
  timestamp : t.timestamp = u.timestamp
  sender : t.sender = u.sender
  payload : t.payload = u.payload
  transfer : t.isTransfer = true →
    t.receiver = u.receiver ∧ t.nonce = u.nonce ∧ t.fee = u.fee ∧ t.amount = u.amount

theorem unsigned_labels_nodup (t : Transaction) : (t.fields.map (·.1)).Nodup :=
  (nodup_of_append_field t.labels_nodup).1

theorem SameTerms.fields_eq {t u : Transaction} (h : t.SameTerms u) : t.fields = u.fields := by
  have hkind : t.isTransfer = u.isTransfer := by rw [isTransfer, h.kind, isTransfer]
  have htransfer : t.transferFields = u.transferFields := by
    unfold transferFields
    rw [← hkind]
    split
    · next ht =>
      obtain ⟨hreceiver, hnonce, hfee, hamount⟩ := h.transfer ht
      rw [hreceiver, hnonce, hfee, hamount]
    · rfl
  rw [fields, h.chain, h.version, h.kind, h.timestamp, h.sender, h.payload, htransfer, fields]

theorem sameTerms_of_agree {t u : Transaction} (h : Agree t.fields u.fields) : t.SameTerms u := by
  have hkind : t.kind = u.kind := congrArg TransactionKind.mk
    (h.int32 (.ascii ['e']) (by simp [fields]) (by simp [fields]))
  refine ⟨?_, ?_, hkind, ?_, ?_, ?_, fun ht => ?_⟩
  · exact h.bytes (.ascii ['i']) (by simp [fields]) (by simp [fields])
  · exact h.int32 (.ascii ['v']) (by simp [fields]) (by simp [fields])
  · exact h.int64 (.ascii ['t']) (by simp [fields]) (by simp [fields])
  · exact h.fixed (.ascii ['s']) (by simp [fields]) (by simp [fields])
  · exact h.bytes (.ascii ['p']) (by simp [fields]) (by simp [fields])
  · -- the kinds are equal, so both have the fields of a transfer
    have hu : u.isTransfer = true := by rwa [isTransfer, ← hkind]
    have left {f : Label × Bencode} (hf : f ∈ t.transferFields) : f ∈ t.fields := by
      simp [fields, hf]
    have right {f : Label × Bencode} (hf : f ∈ u.transferFields) : f ∈ u.fields := by
      simp [fields, hf]
    rw [transferFields, if_pos ht] at left
    rw [transferFields, if_pos hu] at right
    refine ⟨?_, ?_, ?_, ?_⟩
    · exact h.fixed (.ascii ['r']) (left (by simp)) (right (by simp))
    · exact h.int64 (.ascii ['n']) (left (by simp)) (right (by simp))
    · exact h.int64 (.ascii ['f']) (left (by simp)) (right (by simp))
    · exact h.int64 (.ascii ['a']) (left (by simp)) (right (by simp))

theorem unsignedEncode_eq_iff (t u : Transaction) :
    t.unsignedEncode = u.unsignedEncode ↔ t.SameTerms u := by
  constructor
  · intro h
    exact sameTerms_of_agree (agree_of_record_eq t.unsigned_labels_nodup u.unsigned_labels_nodup
      (render_injective h))
  · intro h
    rw [unsignedEncode, h.fields_eq, unsignedEncode]

theorem encode_ne_unsignedEncode (t u : Transaction) : t.encode ≠ u.unsignedEncode := by
  have hsigned : signatureField t.signature ∈ t.signedFields := by simp [signedFields]
  exact render_record_ne t.labels_nodup (List.mem_map_of_mem hsigned)
    (nodup_of_append_field u.labels_nodup).2

end Transaction

section

variable [Crypto]

namespace Block

/-- Both say the same, whoever signed them, of one transaction with one
signature. Of the versions only the ids count. -/
structure SameTerms (a b : Block) : Prop where
  version : a.version.id = b.version.id
  chain : a.chain = b.chain
  timestamp : a.timestamp = b.timestamp
  height : a.height = b.height
  parent : a.parent = b.parent
  baseTarget : a.baseTarget = b.baseTarget
  cumulativeDifficulty : a.cumulativeDifficulty = b.cumulativeDifficulty
  generationSignature : a.generationSignature = b.generationSignature
  transaction : a.transaction.encode = b.transaction.encode
  miner : a.miner = b.miner
  states : a.states = b.states

theorem unsigned_labels_nodup (b : Block) : (b.fields.map (·.1)).Nodup :=
  (nodup_of_append_field b.labels_nodup).1

theorem SameTerms.fields_eq {a b : Block} (h : a.SameTerms b) : a.fields = b.fields := by
  have htransaction : a.transaction.toBencode = b.transaction.toBencode :=
    render_injective h.transaction
  rw [Content.fields, h.version, h.chain, h.timestamp, h.height, h.parent, h.baseTarget,
    h.cumulativeDifficulty, h.generationSignature, htransaction, h.miner, h.states, Content.fields]

theorem sameTerms_of_agree {a b : Block} (h : Agree a.fields b.fields) : a.SameTerms b := by
  have holding {x y : Holding} (lb ln : Label)
      (hxb : (lb, .bytes (.ofInt64 x.balance)) ∈ a.fields)
      (hyb : (lb, .bytes (.ofInt64 y.balance)) ∈ b.fields)
      (hxn : (ln, .bytes (.ofInt64 x.nonce)) ∈ a.fields)
      (hyn : (ln, .bytes (.ofInt64 y.nonce)) ∈ b.fields) : x = y :=
    congrArg₂ Holding.mk (h.int64 lb hxb hyb) (h.int64 ln hxn hyn)
  have hminer : a.states.miner = b.states.miner :=
    holding (.ascii ['m', 'b']) (.ascii ['m', 'n']) (by simp [Content.fields])
      (by simp [Content.fields]) (by simp [Content.fields]) (by simp [Content.fields])
  have hsender : a.states.sender = b.states.sender :=
    holding (.ascii ['s', 'b']) (.ascii ['s', 'n']) (by simp [Content.fields])
      (by simp [Content.fields]) (by simp [Content.fields]) (by simp [Content.fields])
  have hreceiver : a.states.receiver = b.states.receiver :=
    holding (.ascii ['r', 'b']) (.ascii ['r', 'n']) (by simp [Content.fields])
      (by simp [Content.fields]) (by simp [Content.fields]) (by simp [Content.fields])
  refine ⟨?_, ?_, ?_, ?_, ?_, ?_, ?_, ?_, ?_, ?_, ?_⟩
  · exact h.int32 (.ascii ['v']) (by simp [Content.fields]) (by simp [Content.fields])
  · exact h.bytes (.ascii ['i']) (by simp [Content.fields]) (by simp [Content.fields])
  · exact h.int64 (.ascii ['t']) (by simp [Content.fields]) (by simp [Content.fields])
  · exact h.int64 (.ascii ['n']) (by simp [Content.fields]) (by simp [Content.fields])
  · exact h.fixed (.ascii ['h']) (by simp [Content.fields]) (by simp [Content.fields])
  · exact h.uint64 (.ascii ['b']) (by simp [Content.fields]) (by simp [Content.fields])
  · exact h.uint64 (.ascii ['d']) (by simp [Content.fields]) (by simp [Content.fields])
  · exact h.fixed (.ascii ['g']) (by simp [Content.fields]) (by simp [Content.fields])
  · exact congrArg render (h (.ascii ['x']) (by simp [Content.fields]) (by simp [Content.fields]))
  · exact h.fixed (.ascii ['m']) (by simp [Content.fields]) (by simp [Content.fields])
  · calc a.states = ⟨a.states.miner, a.states.sender, a.states.receiver⟩ := rfl
      _ = b.states := by rw [hminer, hsender, hreceiver]

theorem unsignedEncode_eq_iff (a b : Block) :
    a.unsignedEncode = b.unsignedEncode ↔ a.SameTerms b := by
  constructor
  · intro h
    exact sameTerms_of_agree (agree_of_record_eq a.unsigned_labels_nodup b.unsigned_labels_nodup
      (render_injective h))
  · intro h
    rw [Content.unsignedEncode, h.fields_eq, Content.unsignedEncode]

theorem encode_ne_unsignedEncode (a b : Block) : a.encode ≠ b.unsignedEncode := by
  have hsigned : Transaction.signatureField a.signature ∈ a.signedFields := by simp [signedFields]
  exact render_record_ne a.labels_nodup (List.mem_map_of_mem hsigned)
    (nodup_of_append_field b.labels_nodup).2

theorem render_ne_transaction {b : Block} {t : Transaction} {fs gs : List (Label × Bencode)}
    (hfs : (fs.map (·.1)).Nodup) (hb : b.fields ⊆ fs) (ht : gs ⊆ t.signedFields) :
    (record gs).render ≠ (record fs).render := by
  have hblock : (.ascii ['x'], b.transaction.toBencode) ∈ fs := hb (by simp [Content.fields])
  have hlabels : .ascii ['x'] ∉ t.signedFields.map (·.1) := by
    rw [Transaction.labels_eq]
    split <;> decide
  have habsent : .ascii ['x'] ∉ gs.map (·.1) := fun h => hlabels (List.map_subset _ ht h)
  exact (render_record_ne hfs (List.mem_map_of_mem hblock) habsent).symm

theorem encodings_ne_transaction (b : Block) (t : Transaction) :
    t.encode ≠ b.encode ∧ t.encode ≠ b.unsignedEncode ∧
      t.unsignedEncode ≠ b.encode ∧ t.unsignedEncode ≠ b.unsignedEncode := by
  have hb : b.fields ⊆ b.signedFields := List.subset_append_left _ _
  have ht : t.fields ⊆ t.signedFields := List.subset_append_left _ _
  refine ⟨?_, ?_, ?_, ?_⟩
  · exact render_ne_transaction b.labels_nodup hb (List.Subset.refl t.signedFields)
  · exact render_ne_transaction b.unsigned_labels_nodup (List.Subset.refl _)
      (List.Subset.refl t.signedFields)
  · exact render_ne_transaction b.labels_nodup hb ht
  · exact render_ne_transaction b.unsigned_labels_nodup (List.Subset.refl _) ht

end Block

/-- Bytes that are signed stand for one content of one kind: unsigned forms are
equal just where the terms are, up to the id of a version, and the forms of
transactions and blocks, with and without a signature, are four disjoint sets. -/
theorem unsigned_encodings_commit :
    (∀ t u : Transaction, t.unsignedEncode = u.unsignedEncode ↔ t.SameTerms u) ∧
    (∀ a b : Block, a.unsignedEncode = b.unsignedEncode ↔ a.SameTerms b) ∧
    (∀ (t : Transaction) (b : Block),
      t.encode ≠ b.encode ∧ t.encode ≠ b.unsignedEncode ∧
        t.unsignedEncode ≠ b.encode ∧ t.unsignedEncode ≠ b.unsignedEncode) ∧
    (∀ t u : Transaction, t.encode ≠ u.unsignedEncode) ∧
    (∀ a b : Block, a.encode ≠ b.unsignedEncode) :=
  ⟨Transaction.unsignedEncode_eq_iff, Block.unsignedEncode_eq_iff,
    fun t b => b.encodings_ne_transaction t, Transaction.encode_ne_unsignedEncode,
    Block.encode_ne_unsignedEncode⟩

end

section

attribute [local instance] checksum

/-- The first block under an unknown version with the id of the one in force. -/
def disguisedBlock : Block := .hashed { firstBlock.toContent with version := .unknown 0 }

/-- A signature of either block covers the other, of another version. -/
theorem unsigned_version_ambiguous :
    disguisedBlock.unsignedEncode = firstBlock.unsignedEncode ∧
      disguisedBlock.version ≠ firstBlock.version ∧
      disguisedBlock.version.id = firstBlock.version.id := by
  decide +kernel

end

end ChainState
