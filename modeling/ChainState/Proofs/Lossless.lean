import ChainState.Message
import ChainState.Proofs.Envelopes
import ChainState.Proofs.Runs
import ChainState.StateArray

/-!
# Nothing is lost between a record and its bytes

Accounts, snapshots of accounts, messages and votes are read back from their
bytes as they were written, as the records of the index are, and the set of
chains is read back from the repository it was saved in. A hash is not
written: what is read back has the hash of the bytes it was read from.
-/

set_option autoImplicit false

namespace ChainState

open Bencode

namespace Bencode

theorem readable_int64 (n : Int64) (room : Nat) : (Bencode.bytes (.ofInt64 n)).Readable room :=
  readable_bytes (by rw [Bytes.length_ofInt64]; decide) room

theorem int64At_record {r : Bencode} {fields : List (Label × Bencode)} (hr : r = record fields)
    (hn : (fields.map (·.1)).Nodup) (i : Nat) {l : Label} {n : Int64}
    (h : fields[i]? = some (l, .bytes (.ofInt64 n))) : r.int64At l = n := by
  rw [int64At, bytesAt_of_field? (field?_record hr hn i h), Bytes.toInt64_ofInt64]

end Bencode

namespace Account

theorem readable (a : Account) : a.toBencode.Readable 1 := by
  refine readable_record ?_
  simp only [List.forall_mem_cons, List.not_mem_nil, false_implies, implies_true, and_true]
  exact ⟨⟨length_ascii_lt (by decide), readable_int64 a.balance 0⟩,
    ⟨length_ascii_lt (by decide), readable_int64 a.nonce 0⟩,
    ⟨length_ascii_lt (by decide), readable_int64 a.noteTimestamp 0⟩,
    ⟨length_ascii_lt (by decide), readable_int64 a.effectivePower 0⟩,
    length_ascii_lt (by decide), readable_int64 a.height 0⟩

theorem ofBencode_toBencode (a : Account) : ofBencode a.toBencode = a := by
  have hlabels : [Label.ascii ['b'], .ascii ['n'], .ascii ['t'], .ascii ['p'],
    .ascii ['h']].Nodup := by decide
  have hbalance : a.toBencode.int64At (.ascii ['b']) = a.balance :=
    int64At_record rfl (by exact hlabels) 0 rfl
  have hnonce : a.toBencode.int64At (.ascii ['n']) = a.nonce :=
    int64At_record rfl (by exact hlabels) 1 rfl
  have hnote : a.toBencode.int64At (.ascii ['t']) = a.noteTimestamp :=
    int64At_record rfl (by exact hlabels) 2 rfl
  have hpower : a.toBencode.int64At (.ascii ['p']) = a.effectivePower :=
    int64At_record rfl (by exact hlabels) 3 rfl
  have hheight : a.toBencode.int64At (.ascii ['h']) = a.height :=
    int64At_record rfl (by exact hlabels) 4 rfl
  simp only [ofBencode, hbalance, hnonce, hnote, hpower, hheight]

theorem decode_encode (a : Account) : decode a.encode = .ok a := by
  simp [decode, encode, (a.readable.mono (by decide)).decode, Except.map, ofBencode_toBencode]

end Account

theorem Vote.decode_encode (v : Vote) : Bencode.decode v.encode = .ok v.toBencode :=
  (v.readable.mono (by decide)).decode

section

variable [Crypto]

namespace StateArray

theorem readable (s : StateArray) : s.toBencode.Readable 2 := by
  refine readable_list fun v hv => ?_
  obtain ⟨a, _, rfl⟩ := List.mem_map.1 hv
  exact a.readable

theorem ofBencode_toBencode (s : StateArray) : ofBencode s.toBencode = s := by
  apply ext
  simp [ofBencode, Content.toBencode, list?, Function.comp_def, Account.ofBencode_toBencode]

theorem decode_encode (s : StateArray) : decode s.encode = .ok s := by
  simp [decode, Content.encode, (s.readable.mono (by decide)).decode, Except.map,
    ofBencode_toBencode]

end StateArray

theorem Message.decode_encode {m : Message} (h : m.payload.length < sizeLimit) :
    decode m.encode = .ok m := by
  simp [decode, Content.encode, ((Message.readable h).mono (by decide)).decode, Except.map,
    ofBencode_toBencode]

theorem Transition.ends_saveChains {chains : SortedSet Bytes}
    (h : ∀ c ∈ chains.elements, c.length < sizeLimit) (r : Repository) :
    Ends (saveChains chains) r fun _ s => s.chains = .ok chains := by
  rw [saveChains, ends_put]
  have hvalue : (r.put .chains (recordOfChains chains)).value .chains =
      some (recordOfChains chains) := by
    rw [Repository.value_put, if_pos rfl]
  rw [Repository.chains, Repository.load_some hvalue (chainsOfRecord_recordOfChains h)]
  rfl

/-- Every record, of whatever content, is read back from its bytes as it was
written, with the hash of just these bytes where it has one, and the chains
that are saved are the chains that are found. -/
theorem records_read_back :
    (∀ a : Account, Account.decode a.encode = .ok a) ∧
    (∀ s : Span, Span.decode s.encode = .ok s) ∧
    (∀ h : HeightRecord, HeightRecord.decode h.encode = .ok h) ∧
    (∀ l : Links, Links.decode l.encode = .ok l) ∧
    (∀ m : Message, m.payload.length < sizeLimit →
      Message.decode m.encode = .ok m ∧
      (Message.decode m.encode).map Message.hash = .ok (Crypto.digest m.encode)) ∧
    (∀ s : StateArray, StateArray.decode s.encode = .ok s ∧
      (StateArray.decode s.encode).map StateArray.hash = .ok (Crypto.digest s.encode)) ∧
    (∀ v : Vote, Vote.ofBencode v.toBencode = v ∧
      (Bencode.decode v.encode).map Vote.ofBencode = .ok v) ∧
    ∀ (r : Repository) (chains : SortedSet Bytes),
      (∀ c ∈ chains.elements, c.length < sizeLimit) →
      Transition.Ends (Transition.saveChains chains) r fun _ s => s.chains = .ok chains := by
  refine ⟨Account.decode_encode, Span.decode_encode, HeightRecord.decode_encode,
    Links.decode_encode, fun m h => ?message, fun s => ?snapshot, fun v => ?vote,
    fun r chains h => Transition.ends_saveChains h r⟩
  case message =>
    rw [Message.decode_encode h]
    exact ⟨rfl, congrArg Except.ok m.hash_eq⟩
  case snapshot =>
    rw [s.decode_encode]
    exact ⟨rfl, congrArg Except.ok s.hash_eq⟩
  case vote =>
    rw [v.decode_encode]
    exact ⟨v.ofBencode_toBencode, congrArg Except.ok v.ofBencode_toBencode⟩

end

section

attribute [local instance] checksum

def greeting : Message where
  timestamp := -1
  sender := .ofBytes [1]
  receiver := .ofBytes [2]
  payload := [0x68, 0x69]

def nestedNames : SortedSet Bytes := .ofElements [[0x62, 0x63], [0x62]]

theorem records_read_back_greeting :
    (greeting.payload.length < sizeLimit ∧ Message.decode greeting.encode = .ok greeting) ∧
    (∀ c ∈ nestedNames.elements, c.length < sizeLimit) ∧
    Transition.Ends (Transition.saveChains nestedNames) .empty fun _ s =>
      s.chains = .ok nestedNames := by
  obtain ⟨-, -, -, -, hmessage, -, -, hchains⟩ := records_read_back
  have hpayload : greeting.payload.length < sizeLimit := by decide
  have hnames : ∀ c ∈ nestedNames.elements, c.length < sizeLimit := by decide +kernel
  exact ⟨⟨hpayload, (hmessage greeting hpayload).1⟩, hnames, hchains .empty nestedNames hnames⟩

end

end ChainState
