import ChainState.Proofs.Bencode.Nesting
import ChainState.Proofs.Layers
import ChainState.Proofs.Received
import ChainState.Wire.Envelope

/-!
# Envelopes read back

What is put into an envelope comes out of it, in order and of the same kinds.
An envelope wraps its entries in a list within a dictionary, so two levels of
the reader's room are gone before the first entry.
-/

set_option autoImplicit false

namespace ChainState

open Bencode

namespace Bencode

theorem intAt?_of_field? {v : Bencode} {l : Label} {n : Int64}
    (h : v.field? l = some (.int n)) : v.intAt? l = some n := by
  simp [intAt?, int?, h]

theorem listAt_of_field? {v : Bencode} {l : Label} {items : List Bencode}
    (h : v.field? l = some (.list items)) : v.listAt l = items := by
  simp [listAt, list?, h]

theorem readable_int (n : Int64) (room : Nat) : (Bencode.int n).Readable room :=
  ⟨trivial, trivial, Nat.zero_le _⟩

theorem depth_record_le_iff {fields : List (Label × Bencode)} {n : Nat}
    (hn : (fields.map (·.1)).Nodup) :
    (record fields).depth ≤ n + 1 ↔ ∀ f ∈ fields, f.2.depth ≤ n := by
  rw [record, depth, Nat.add_le_add_iff_right, depthFields_le_iff]
  constructor
  · intro h f hf
    obtain ⟨i, hi⟩ := List.getElem?_of_mem hf
    exact h f ((Ascending.find?_eq_some_iff (sorted_foldl_insert fields [] .nil)).1
      (field?_record rfl hn i hi))
  · intro h f hf
    exact h f (by simpa using mem_foldl_insert hf)

end Bencode

section

variable [Crypto]

namespace Message

theorem readable {m : Message} (h : m.payload.length < sizeLimit) : m.toBencode.Readable 1 := by
  refine readable_record ?_
  simp only [List.forall_mem_cons, List.not_mem_nil, false_implies, implies_true, and_true]
  exact ⟨⟨length_ascii_lt (by decide), readable_int _ 0⟩,
    ⟨length_ascii_lt (by decide), readable_bytes m.sender.length_lt 0⟩,
    ⟨length_ascii_lt (by decide), readable_bytes m.receiver.length_lt 0⟩,
    length_ascii_lt (by decide), readable_bytes h 0⟩

theorem ofBencode_toBencode (m : Message) : ofBencode m.toBencode = m := by
  have hlabels : [Label.ascii ['t'], .ascii ['s'], .ascii ['r'], .ascii ['p']].Nodup := by decide
  have ht : m.toBencode.field? (.ascii ['t']) = some (.int m.timestamp) :=
    field?_record rfl (by exact hlabels) 0 rfl
  have hs : m.toBencode.field? (.ascii ['s']) = some (.bytes m.sender.bytes) :=
    field?_record rfl (by exact hlabels) 1 rfl
  have hr : m.toBencode.field? (.ascii ['r']) = some (.bytes m.receiver.bytes) :=
    field?_record rfl (by exact hlabels) 2 rfl
  have hp : m.toBencode.field? (.ascii ['p']) = some (.bytes m.payload) :=
    field?_record rfl (by exact hlabels) 3 rfl
  apply Message.ext
  simp [ofBencode, intAt?_of_field? ht, bytesAt_of_field? hs, bytesAt_of_field? hr,
    bytesAt_of_field? hp, FixedBytes.ofBytes_bytes]

end Message

end

namespace Vote

theorem readable (v : Vote) : v.toBencode.Readable 1 := by
  refine readable_record ?_
  simp only [List.forall_mem_cons, List.not_mem_nil, false_implies, implies_true, and_true]
  exact ⟨⟨length_ascii_lt (by decide), readable_bytes v.block.length_lt 0⟩,
    length_ascii_lt (by decide), readable_bytes (by rw [Bytes.length_ofInt64]; decide) 0⟩

theorem ofBencode_toBencode (v : Vote) : ofBencode v.toBencode = v := by
  have hlabels : [Label.ascii ['h'], .ascii ['n']].Nodup := by decide
  have hh : v.toBencode.field? (.ascii ['h']) = some (.bytes v.block.bytes) :=
    field?_record rfl (by exact hlabels) 0 rfl
  have hn : v.toBencode.field? (.ascii ['n']) = some (.bytes (.ofInt64 v.height)) :=
    field?_record rfl (by exact hlabels) 1 rfl
  simp [ofBencode, int64At, bytesAt_of_field? hh, bytesAt_of_field? hn, FixedBytes.ofBytes_bytes,
    Bytes.toInt64_ofInt64]

end Vote

namespace Payload

variable [Crypto]

/-- The byte strings of the payload fit in memory, and its block or transaction
is itself read back as it was written. -/
def Faithful : Payload → Prop
  | .message m => m.payload.length < sizeLimit
  | .hashBytes content => content.length < sizeLimit
  | .friendInfoRequest => True
  | .friendInfo content => content.length < sizeLimit
  | .blockRequest _ => True
  | .block b => Block.decode b.encode = .ok b
  | .transactionRequest _ => True
  | .transaction t => Transaction.decode t.encode = .ok t
  | .voteRequest chain => chain.length < sizeLimit
  | .vote chain _ => chain.length < sizeLimit
  | .headRequest chain => chain.length < sizeLimit

def fields (p : Payload) : List (Label × Bencode) := (typeLabel, .int p.dataType)::p.contentFields

theorem labels_nodup (p : Payload) : (p.fields.map (·.1)).Nodup := by
  cases p <;> simp only [fields, contentFields, List.map_cons, List.map_nil] <;> decide

theorem field?_of_mem {p : Payload} {l : Label} {v : Bencode} (h : (l, v) ∈ p.fields) :
    p.toBencode.field? l = some v := by
  obtain ⟨i, hi⟩ := List.getElem?_of_mem h
  exact field?_record rfl p.labels_nodup i hi

theorem valueOf_of_mem {p : Payload} {v : Bencode} (h : (valueLabel, v) ∈ p.fields) :
    valueOf p.toBencode = .ok v := by
  simp [valueOf, field?_of_mem h]

theorem bytesAt_of_mem {p : Payload} {l : Label} {content : Bytes}
    (h : (l, .bytes content) ∈ p.fields) : p.toBencode.bytesAt l = content :=
  bytesAt_of_field? (field?_of_mem h)

theorem readable {p : Payload} (h : p.Faithful) : p.toBencode.Readable 3 := by
  have bytes {content : Bytes} (h : content.length < sizeLimit) :
      (Bencode.bytes content).Readable 2 := readable_bytes h 2
  have hcontent : ∀ f ∈ p.contentFields, f.1.bytes.length < sizeLimit ∧ f.2.Readable 2 := by
    have hv : valueLabel.bytes.length < sizeLimit := length_ascii_lt (by decide)
    have hi : chainLabel.bytes.length < sizeLimit := length_ascii_lt (by decide)
    cases p with
    | message m => simpa [contentFields, hv] using (Message.readable h).mono (by decide)
    | hashBytes content => simpa [contentFields, hv] using bytes h
    | friendInfoRequest => simp [contentFields]
    | friendInfo content => simpa [contentFields, hv] using bytes h
    | blockRequest hash => simpa [contentFields, hv] using bytes hash.length_lt
    | block b => simpa [contentFields, hv] using Block.readable (Block.sized_of_decode h)
    | transactionRequest hash => simpa [contentFields, hv] using bytes hash.length_lt
    | transaction t =>
      simpa [contentFields, hv] using
        (Transaction.readable (Transaction.sized_of_decode h)).mono (by decide)
    | voteRequest chain => simpa [contentFields, hi] using bytes h
    | vote chain v =>
      simpa [contentFields, hi, hv] using ⟨bytes h, v.readable.mono (by decide)⟩
    | headRequest chain => simpa [contentFields, hi] using bytes h
  exact readable_record (List.forall_mem_cons.2
    ⟨⟨length_ascii_lt (by decide), readable_int _ 2⟩, hcontent⟩)

theorem ofBencode_eq (p : Payload) :
    ofBencode p.toBencode = ofDataType? p.toBencode p.dataType := by
  have htype : p.toBencode.intAt? typeLabel = some p.dataType :=
    intAt?_of_field? (field?_of_mem (by simp [fields]))
  rw [ofBencode, htype]

theorem ofBencode_toBencode {p : Payload} (h : p.Faithful) : ofBencode p.toBencode = .ok p := by
  rw [ofBencode_eq]
  cases p with
  | message m =>
    have hv : valueOf (message m).toBencode = .ok m.toBencode :=
      valueOf_of_mem (by simp [fields, contentFields])
    simp [ofDataType?, dataType, hv, Except.map, Message.ofBencode_toBencode]
  | hashBytes content =>
    have hv : (hashBytes content).toBencode.bytesAt valueLabel = content :=
      bytesAt_of_mem (by simp [fields, contentFields])
    simp [ofDataType?, dataType, hv]
  | friendInfoRequest => simp [ofDataType?, dataType]
  | friendInfo content =>
    have hv : (friendInfo content).toBencode.bytesAt valueLabel = content :=
      bytesAt_of_mem (by simp [fields, contentFields])
    simp [ofDataType?, dataType, hv]
  | blockRequest hash =>
    have hv : (blockRequest hash).toBencode.bytesAt valueLabel = hash.bytes :=
      bytesAt_of_mem (by simp [fields, contentFields])
    simp [ofDataType?, dataType, hv, FixedBytes.ofBytes_bytes]
  | block b =>
    have hv : valueOf (block b).toBencode = .ok b.toBencode :=
      valueOf_of_mem (by simp [fields, contentFields])
    have hb := Block.stored_of_decode h
    rw [Block.stored] at hb
    simp [ofDataType?, dataType, hv, Except.map, hb]
  | transactionRequest hash =>
    have hv : (transactionRequest hash).toBencode.bytesAt valueLabel = hash.bytes :=
      bytesAt_of_mem (by simp [fields, contentFields])
    simp [ofDataType?, dataType, hv, FixedBytes.ofBytes_bytes]
  | transaction t =>
    have hv : valueOf (transaction t).toBencode = .ok t.toBencode :=
      valueOf_of_mem (by simp [fields, contentFields])
    have ht := Transaction.stored_of_decode h
    rw [Transaction.stored] at ht
    simp [ofDataType?, dataType, hv, Except.map, ht]
  | voteRequest chain =>
    have hi : (voteRequest chain).toBencode.bytesAt chainLabel = chain :=
      bytesAt_of_mem (by simp [fields, contentFields])
    simp [ofDataType?, dataType, hi]
  | vote chain v =>
    have hi : (vote chain v).toBencode.bytesAt chainLabel = chain :=
      bytesAt_of_mem (by simp [fields, contentFields])
    have hv : valueOf (vote chain v).toBencode = .ok v.toBencode :=
      valueOf_of_mem (by simp [fields, contentFields])
    simp [ofDataType?, dataType, hi, hv, Except.map, Vote.ofBencode_toBencode]
  | headRequest chain =>
    have hi : (headRequest chain).toBencode.bytesAt chainLabel = chain :=
      bytesAt_of_mem (by simp [fields, contentFields])
    simp [ofDataType?, dataType, hi]

end Payload

namespace Envelope

theorem ofBencode_toBencode (e : Envelope) : ofBencode e.toBencode = .ok e := by
  have hlabels : [protocolLabel, entriesLabel].Nodup := by decide
  have hprotocol : e.toBencode.field? protocolLabel = some (.int e.protocol.id) :=
    field?_record rfl (by exact hlabels) 0 rfl
  have hentries : e.toBencode.field? entriesLabel = some (.list e.entries) :=
    field?_record rfl (by exact hlabels) 1 rfl
  have hid : Protocol.ofId e.protocol.id = .ok e.protocol := by
    cases e.protocol <;> simp [Protocol.ofId, Protocol.id]
  simp [ofBencode, intAt?_of_field? hprotocol, listAt_of_field? hentries, hid, Except.map]

theorem readable {e : Envelope} {room : Nat} (h : ∀ v ∈ e.entries, v.Readable room) :
    e.toBencode.Readable (room + 2) := by
  refine readable_record ?_
  simp only [List.forall_mem_cons, List.not_mem_nil, false_implies, implies_true, and_true]
  exact ⟨⟨length_ascii_lt (by decide), readable_int _ (room + 1)⟩,
    length_ascii_lt (by decide), readable_list h⟩

theorem depth_le_iff (e : Envelope) (room : Nat) :
    e.toBencode.depth ≤ room + 2 ↔ ∀ v ∈ e.entries, v.depth ≤ room := by
  have hlabels : [protocolLabel, entriesLabel].Nodup := by decide
  rw [toBencode, depth_record_le_iff (by exact hlabels)]
  simp [depth, depthItems_le_iff]

theorem decode_encode {e : Envelope} (h : ∀ v ∈ e.entries, v.Readable 62) :
    decode e.encode = .ok e := by
  simp [decode, encode, (readable h).decode, Except.mapError, bind, Except.bind,
    ofBencode_toBencode]

theorem decode_encode_too_deep {e : Envelope} (h : ∀ v ∈ e.entries, v.Ordered ∧ v.Sized)
    (hdeep : ¬ ∀ v ∈ e.entries, v.depth ≤ 62) :
    ∃ offset, decode e.encode = .error (.malformed (.tooDeep 64 offset)) := by
  -- with as much room as the entries need, the envelope is well-formed
  have hreadable : e.toBencode.Readable (depthItems e.entries + 2) := readable fun v hv =>
    ⟨(h v hv).1, (h v hv).2, depthItems_le_iff.1 (Nat.le_refl _) v hv⟩
  have hover : maxDepth < e.toBencode.depth := by
    rw [← e.depth_le_iff] at hdeep
    exact Nat.not_le.1 hdeep
  obtain ⟨offset, hread⟩ := overruns_value maxDepth e.toBencode hreadable.ordered
    hreadable.sized hover ⟨0, e.toBencode.render⟩ [] (by simp)
  refine ⟨offset, ?_⟩
  simp only [decode, encode, Bencode.decode, hread, bind, Except.bind, Except.mapError]
  rfl

variable [Crypto]

def pushAll (e : Envelope) (ps : List Payload) : Envelope :=
  ps.foldl (fun e p => e.push p.toBencode) e

theorem pushAll_eq (e : Envelope) (ps : List Payload) :
    e.pushAll ps = { e with entries := e.entries ++ ps.map Payload.toBencode } := by
  induction ps generalizing e with
  | nil => simp [pushAll]
  | cons p ps ih =>
    rw [pushAll, List.foldl_cons, ← pushAll, ih]
    simp [push]

theorem payloads_pushAll (protocol : Protocol) {ps : List Payload}
    (h : ∀ p ∈ ps, p.Faithful) : (pushAll ⟨protocol, []⟩ ps).payloads = .ok ps := by
  have hread : ∀ p ∈ ps, Payload.ofBencode p.toBencode = .ok (id p) := fun p hp =>
    Payload.ofBencode_toBencode (h p hp)
  rw [pushAll_eq, payloads]
  exact List.mapM_map.trans ((mapM_ok hread).trans (by rw [List.map_id]))

/-- The payloads of an envelope come out of its bytes as they were put in, and
an envelope of any entries is read back just if none of them nests deeper than
62 levels. -/
theorem decode_encode_envelope :
    (∀ (protocol : Protocol) (ps : List Payload), (∀ p ∈ ps, p.Faithful) →
      ∃ e : Envelope, decode (pushAll ⟨protocol, []⟩ ps).encode = .ok e ∧
        e.protocol = protocol ∧ e.payloads = .ok ps) ∧
    (∀ e : Envelope, (∀ v ∈ e.entries, v.Ordered ∧ v.Sized) →
      (decode e.encode = .ok e ↔ ∀ v ∈ e.entries, v.depth ≤ 62) ∧
      ((¬ ∀ v ∈ e.entries, v.depth ≤ 62) →
        ∃ offset, decode e.encode = .error (.malformed (.tooDeep 64 offset)))) := by
  refine ⟨fun protocol ps h => ⟨pushAll ⟨protocol, []⟩ ps, decode_encode ?_, ?_,
    payloads_pushAll protocol h⟩, fun e h => ⟨⟨fun hread => ?_, fun hdepth => ?_⟩,
    decode_encode_too_deep h⟩⟩
  · rw [pushAll_eq]
    simp only [List.nil_append, List.forall_mem_map]
    exact fun p hp => (Payload.readable (h p hp)).mono (by decide)
  · rw [pushAll_eq]
  · by_contra hdeep
    obtain ⟨offset, herror⟩ := decode_encode_too_deep h hdeep
    rw [hread] at herror
    cases herror
  · exact decode_encode fun v hv => ⟨(h v hv).1, (h v hv).2, hdepth v hv⟩

end Envelope

section

attribute [local instance] checksum

def relayed : List Payload :=
  [.vote [0x61] ⟨payment.hash, 1⟩, .headRequest [0x61], .block payment,
    .transaction payment.transaction]

theorem faithful_relayed : ∀ p ∈ relayed, p.Faithful := by
  have hsized : payment.Sized := by decide +kernel
  have hsettled := issued_payment.settled
  have hchain : ([0x61] : Bytes).length < sizeLimit := by decide
  simp only [relayed, List.forall_mem_cons, List.not_mem_nil, false_implies, implies_true, and_true]
  exact ⟨hchain, hchain, (Block.decode_encode_eq_iff hsized).2 ⟨by decide, hsettled⟩,
    (Transaction.decode_encode_eq_iff hsized.transaction).2 hsettled⟩

theorem Envelope.decode_encode_envelope_relayed :
    ((∀ p ∈ relayed, p.Faithful) ∧
      ∃ e : Envelope, decode (pushAll ⟨.blockchain, []⟩ relayed).encode = .ok e ∧
        e.protocol = .blockchain ∧ e.payloads = .ok relayed) ∧
    ((nest 61).depth ≤ 62 ∧
      decode (Envelope.encode ⟨.communication, [nest 61]⟩) = .ok ⟨.communication, [nest 61]⟩) ∧
    (62 < (nest 62).depth ∧
      ∃ offset, decode (Envelope.encode ⟨.communication, [nest 61, nest 62]⟩) =
        .error (.malformed (.tooDeep 64 offset))) := by
  have hfits : (nest 61).depth ≤ 62 := by rw [depth_nest]
  have hdeep : 62 < (nest 62).depth := by rw [depth_nest]; decide
  have hone : ∀ v ∈ [nest 61], v.Ordered ∧ v.Sized := by
    simpa using ⟨ordered_nest 61, sized_nest 61⟩
  have htwo : ∀ v ∈ [nest 61, nest 62], v.Ordered ∧ v.Sized := by
    simpa using ⟨⟨ordered_nest 61, sized_nest 61⟩, ordered_nest 62, sized_nest 62⟩
  obtain ⟨hpayloads, hentries⟩ := decode_encode_envelope
  refine ⟨⟨faithful_relayed, hpayloads .blockchain relayed faithful_relayed⟩,
    ⟨hfits, (hentries ⟨.communication, [nest 61]⟩ hone).1.2 (by simpa using hfits)⟩, hdeep,
    (hentries ⟨.communication, [nest 61, nest 62]⟩ htwo).2 fun hall => ?_⟩
  exact absurd (hall (nest 62) (by simp)) (Nat.not_le.2 hdeep)

end

end ChainState
