import ChainState.Proofs.Bencode.RoundTrip
import ChainState.Record.Height
import ChainState.Record.Links
import ChainState.Record.Span
import ChainState.Repository.Query

/-!
# Records read back

Every record that a repository writes decodes to the value it was written
from. A dictionary with distinct labels gives each field back, and the lists
within a record rebuild the maps and sets they came from.
-/

set_option autoImplicit false

namespace ChainState

namespace Bencode

structure Readable (room : Nat) (v : Bencode) : Prop where
  ordered : v.Ordered
  sized : v.Sized
  depth_le : v.depth ≤ room

theorem Readable.decode {v : Bencode} (h : v.Readable maxDepth) :
    Bencode.decode v.render = .ok v :=
  decode_render h.ordered h.sized h.depth_le

theorem Readable.mono {m n : Nat} {v : Bencode} (h : v.Readable m) (hmn : m ≤ n) :
    v.Readable n :=
  ⟨h.ordered, h.sized, Nat.le_trans h.depth_le hmn⟩

theorem readable_bytes {content : Bytes} (h : content.length < sizeLimit) (room : Nat) :
    (Bencode.bytes content).Readable room :=
  ⟨trivial, h, Nat.zero_le _⟩

theorem readable_list {items : List Bencode} {room : Nat}
    (h : ∀ v ∈ items, v.Readable room) : (Bencode.list items).Readable (room + 1) where
  ordered := orderedItems_iff.2 fun v hv => (h v hv).ordered
  sized := sizedItems_iff.2 fun v hv => (h v hv).sized
  depth_le := Nat.succ_le_succ (depthItems_le_iff.2 fun v hv => (h v hv).depth_le)

theorem mem_foldl_insert {fields base : List (Label × Bencode)} {f : Label × Bencode}
    (h : f ∈ fields.foldl (fun d f => Ascending.insert f.1 f.2 d) base) :
    f ∈ fields ∨ f ∈ base := by
  induction fields generalizing base with
  | nil => exact .inr h
  | cons g fields ih =>
    rcases ih h with h | h
    · exact .inl (List.mem_cons_of_mem _ h)
    · rcases Ascending.mem_insert h with h | h
      · exact .inl (by simp [h])
      · exact .inr h

theorem readable_record {fields : List (Label × Bencode)} {room : Nat}
    (h : ∀ f ∈ fields, f.1.bytes.length < sizeLimit ∧ f.2.Readable room) :
    (record fields).Readable (room + 1) := by
  have hmem : ∀ f ∈ fields.foldl (fun d f => Ascending.insert f.1 f.2 d) [], f ∈ fields :=
    fun f hf => by simpa using mem_foldl_insert hf
  refine ⟨⟨sorted_foldl_insert fields [] .nil, ?_⟩, ?_, ?_⟩
  · exact orderedFields_iff.2 fun f hf => (h f (hmem f hf)).2.ordered
  · exact sizedFields_iff.2 fun f hf => ⟨(h f (hmem f hf)).1, (h f (hmem f hf)).2.sized⟩
  · exact Nat.succ_le_succ (depthFields_le_iff.2 fun f hf => (h f (hmem f hf)).2.depth_le)

theorem length_ascii_le (letters : List Char) :
    (Label.ascii letters).bytes.length ≤ letters.length := by
  simpa [Label.ascii] using List.length_filter_le _ (letters.map fun c => UInt8.ofNat c.toNat)

theorem length_ascii_lt {letters : List Char} (h : letters.length ≤ 3) :
    (Label.ascii letters).bytes.length < sizeLimit := by
  have := length_ascii_le letters
  simp only [sizeLimit]
  omega

theorem find?_foldl_insert_of_not_mem {fields base : List (Label × Bencode)} {l : Label}
    (h : l ∉ fields.map (·.1)) :
    Ascending.find? l (fields.foldl (fun d f => Ascending.insert f.1 f.2 d) base) =
      Ascending.find? l base := by
  induction fields generalizing base with
  | nil => rfl
  | cons g fields ih =>
    simp only [List.map_cons, List.mem_cons, not_or] at h
    rw [List.foldl_cons, ih h.2, Ascending.find?_insert, if_neg (by simpa using h.1)]

theorem field?_record_of_not_mem {fields : List (Label × Bencode)} {l : Label}
    (h : l ∉ fields.map (·.1)) : (record fields).field? l = none :=
  find?_foldl_insert_of_not_mem h

theorem field?_record {r : Bencode} {fields : List (Label × Bencode)} (hr : r = record fields)
    (hn : (fields.map (·.1)).Nodup) (i : Nat) {l : Label} {v : Bencode}
    (h : fields[i]? = some (l, v)) : r.field? l = some v := by
  subst hr
  suffices ∀ base, Ascending.find? l
      (fields.foldl (fun d f => Ascending.insert f.1 f.2 d) base) = some v from this []
  have hmem : (l, v) ∈ fields := List.mem_of_getElem? h
  clear h
  intro base
  induction fields generalizing base with
  | nil => cases hmem
  | cons g fields ih =>
    simp only [List.map_cons, List.nodup_cons] at hn
    rcases List.mem_cons.1 hmem with rfl | hmem
    · rw [List.foldl_cons, find?_foldl_insert_of_not_mem hn.1, Ascending.find?_insert]
      simp
    · exact ih hn.2 hmem _

end Bencode

open Bencode

theorem FixedBytes.length_lt {role : Role} (x : FixedBytes role) :
    x.bytes.length < sizeLimit := by
  rw [x.length_bytes]
  cases role <;> decide

namespace Span

theorem readable (s : Span) : s.toBencode.Readable maxDepth := by
  refine (@readable_record _ 0 ?_).mono (by decide)
  simp only [List.forall_mem_cons, List.not_mem_nil, false_implies, implies_true, and_true]
  exact ⟨⟨length_ascii_lt (by decide), readable_bytes s.latest.length_lt 0⟩,
    length_ascii_lt (by decide), readable_bytes s.oldest.length_lt 0⟩

theorem ofBencode_toBencode (s : Span) : ofBencode s.toBencode = s := by
  have hn : [Label.ascii ['l'], Label.ascii ['o']].Nodup := by decide
  have hl : s.toBencode.field? (.ascii ['l']) = some (.bytes s.latest.bytes) :=
    field?_record rfl (by exact hn) 0 rfl
  have ho : s.toBencode.field? (.ascii ['o']) = some (.bytes s.oldest.bytes) :=
    field?_record rfl (by exact hn) 1 rfl
  simp [ofBencode, bytesAt, bytesAt?, bytes?, hl, ho, FixedBytes.ofBytes_bytes]

theorem decode_encode (s : Span) : decode s.encode = .ok s := by
  simp [decode, encode, s.readable.decode, Except.map, ofBencode_toBencode]

end Span

namespace HeightRecord

theorem readable (r : HeightRecord) : r.toBencode.Readable maxDepth := by
  refine (@readable_record _ 1 ?_).mono (by decide)
  intro f hf
  rcases List.mem_append.1 hf with hf | hf
  · obtain ⟨h, _, rfl⟩ := List.mem_map.1 hf
    exact ⟨length_ascii_lt (by decide), readable_bytes h.length_lt 1⟩
  · rw [List.mem_singleton.1 hf]
    refine ⟨length_ascii_lt (by decide), readable_list fun v hv => ?_⟩
    obtain ⟨h, _, rfl⟩ := List.mem_map.1 hv
    exact readable_bytes h.length_lt 0

theorem ofBencode_toBencode (r : HeightRecord) : ofBencode r.toBencode = r := by
  obtain ⟨main, forks⟩ := r
  have hforks : (forks.elements.map fun h => Bencode.bytes h.bytes).filterMap bytes? =
      forks.elements.map (·.bytes) := by
    simp [List.filterMap_map, Function.comp_def, bytes?]
  have hback : (forks.elements.map (·.bytes)).map FixedBytes.ofBytes = forks.elements := by
    simp [Function.comp_def, FixedBytes.ofBytes_bytes]
  cases main with
  | none =>
    let v := toBencode ⟨none, forks⟩
    have hlabels : [Label.ascii ['n']].Nodup := by decide
    have hn : v.field? (.ascii ['n']) =
        some (.list (forks.elements.map fun h => .bytes h.bytes)) :=
      field?_record rfl (by exact hlabels) 0 rfl
    have hm : v.field? (.ascii ['m']) = none :=
      field?_record_of_not_mem (show .ascii ['m'] ∉ [Label.ascii ['n']] by decide)
    simp [v, ofBencode, listAt, bytesAt?, list?, hn, hm, hforks, hback]
  | some h =>
    let v := toBencode ⟨some h, forks⟩
    have hlabels : [Label.ascii ['m'], Label.ascii ['n']].Nodup := by decide
    have hm : v.field? (.ascii ['m']) = some (.bytes h.bytes) :=
      field?_record rfl (by exact hlabels) 0 rfl
    have hn : v.field? (.ascii ['n']) =
        some (.list (forks.elements.map fun h => .bytes h.bytes)) :=
      field?_record rfl (by exact hlabels) 1 rfl
    simp [v, ofBencode, listAt, bytesAt?, list?, bytes?, hn, hm, hforks, hback,
      FixedBytes.ofBytes_bytes]

theorem decode_encode (r : HeightRecord) : decode r.encode = .ok r := by
  simp [decode, encode, r.readable.decode, Except.map, ofBencode_toBencode]

theorem eq_empty_of_isEmpty {r : HeightRecord} (h : r.isEmpty = true) : r = .empty := by
  obtain ⟨main, forks⟩ := r
  simp only [isEmpty, Bool.and_eq_true, Option.isNone_iff_eq_none] at h
  obtain ⟨rfl, hforks⟩ := h
  have : forks = .empty := SortedSet.eq_of_contains fun k => SortedSet.isEmpty_iff.1 hforks k
  rw [this, empty]

end HeightRecord

namespace Links

theorem readable_pairs (m : SortedMap PublicKey Hash) : (pairs m).Readable 2 := by
  refine readable_list fun v hv => ?_
  obtain ⟨e, _, rfl⟩ := List.mem_map.1 hv
  refine readable_list fun w hw => ?_
  simp only [List.mem_cons, List.not_mem_nil, or_false] at hw
  rcases hw with rfl | rfl
  · exact readable_bytes e.1.length_lt 0
  · exact readable_bytes e.2.length_lt 0

theorem readable (l : Links) : l.toBencode.Readable maxDepth := by
  refine (@readable_record _ 2 ?_).mono (by decide)
  simp only [List.forall_mem_cons, List.not_mem_nil, false_implies, implies_true, and_true]
  exact ⟨⟨length_ascii_lt (by decide), readable_bytes l.block.length_lt 2⟩,
    ⟨length_ascii_lt (by decide), readable_pairs _⟩, length_ascii_lt (by decide),
    readable_pairs _⟩

theorem ofBencode_toBencode (l : Links) : ofBencode l.toBencode = l := by
  have hlabels : [Label.ascii ['h'], Label.ascii ['p'], Label.ascii ['n']].Nodup := by decide
  have hh : l.toBencode.field? (.ascii ['h']) = some (.bytes l.block.bytes) :=
    field?_record rfl (by exact hlabels) 0 rfl
  have hp : l.toBencode.field? (.ascii ['p']) = some (pairs l.previous) :=
    field?_record rfl (by exact hlabels) 1 rfl
  have hn : l.toBencode.field? (.ascii ['n']) = some (pairs l.next) :=
    field?_record rfl (by exact hlabels) 2 rfl
  simp [ofBencode, pairs, bytesAt, bytesAt?, listAt, list?, bytes?, hh, hp, hn,
    List.filterMap_map, Function.comp_def, pair?, FixedBytes.ofBytes_bytes]

theorem decode_encode (l : Links) : decode l.encode = .ok l := by
  simp [decode, encode, l.readable.decode, Except.map, ofBencode_toBencode]

end Links

theorem hashOfRecord_bytes (h : Hash) : hashOfRecord h.bytes = .ok h := by
  rw [hashOfRecord, if_pos (show h.bytes.length = 32 from h.length_bytes),
    FixedBytes.ofBytes_bytes]

theorem chainsOfRecord_recordOfChains {s : SortedSet Bytes}
    (h : ∀ c ∈ s.elements, c.length < sizeLimit) :
    chainsOfRecord (recordOfChains s) = .ok s := by
  have hread : (Bencode.list (s.elements.map .bytes)).Readable maxDepth := by
    refine (@readable_list _ 0 fun v hv => ?_).mono (by decide)
    obtain ⟨c, hc, rfl⟩ := List.mem_map.1 hv
    exact readable_bytes (h c hc) 0
  have hback : (s.elements.map Bencode.bytes).filterMap bytes? = s.elements := by
    simp [List.filterMap_map, Function.comp_def, bytes?]
  simp [chainsOfRecord, recordOfChains, hread.decode, list?, hback, bind, Except.bind, pure,
    Except.pure]

end ChainState
