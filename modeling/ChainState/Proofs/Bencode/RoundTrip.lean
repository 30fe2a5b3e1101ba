import ChainState.Bencode.Printer
import ChainState.Bencode.Reader
import ChainState.Proofs.Maps
import ChainState.Proofs.Numerals

/-!
# Values read back

A value whose dictionaries are in order, whose byte strings have lengths that
a signed word can count, and which does not nest deeper than the reader goes,
is read back from its canonical form. The induction is on the room that the
reader has left.
-/

set_option autoImplicit false

namespace ChainState.Bencode

/-- How many bytes a byte string in memory may have at most. -/
def sizeLimit : Nat := 2 ^ 63

mutual

/-- Every byte string within the value, labels included, fits in memory. -/
def Sized : Bencode → Prop
  | .int _ => True
  | .bytes content => content.length < sizeLimit
  | .list items => SizedItems items
  | .dict fields => SizedFields fields

def SizedItems : List Bencode → Prop
  | [] => True
  | item::items => item.Sized ∧ SizedItems items

def SizedFields : List (Label × Bencode) → Prop
  | [] => True
  | (label, value)::fields =>
    label.bytes.length < sizeLimit ∧ value.Sized ∧ SizedFields fields

end

theorem orderedItems_iff {items : List Bencode} :
    OrderedItems items ↔ ∀ v ∈ items, v.Ordered := by
  induction items with
  | nil => simp [OrderedItems]
  | cons item items ih => simp [OrderedItems, ih]

theorem orderedFields_iff {fields : List (Label × Bencode)} :
    OrderedFields fields ↔ ∀ f ∈ fields, f.2.Ordered := by
  induction fields with
  | nil => simp [OrderedFields]
  | cons field fields ih =>
    obtain ⟨label, value⟩ := field
    simp [OrderedFields, ih]

theorem sizedItems_iff {items : List Bencode} :
    SizedItems items ↔ ∀ v ∈ items, v.Sized := by
  induction items with
  | nil => simp [SizedItems]
  | cons item items ih => simp [SizedItems, ih]

theorem sizedFields_iff {fields : List (Label × Bencode)} :
    SizedFields fields ↔ ∀ f ∈ fields, f.1.bytes.length < sizeLimit ∧ f.2.Sized := by
  induction fields with
  | nil => simp [SizedFields]
  | cons field fields ih =>
    obtain ⟨label, value⟩ := field
    simp [SizedFields, ih, and_assoc]

theorem depthItems_le_iff {items : List Bencode} {n : Nat} :
    depthItems items ≤ n ↔ ∀ v ∈ items, v.depth ≤ n := by
  induction items with
  | nil => simp [depthItems]
  | cons item items ih => simp [depthItems, ih]

theorem depthFields_le_iff {fields : List (Label × Bencode)} {n : Nat} :
    depthFields fields ≤ n ↔ ∀ f ∈ fields, f.2.depth ≤ n := by
  induction fields with
  | nil => simp [depthFields]
  | cons field fields ih =>
    obtain ⟨label, value⟩ := field
    simp [depthFields, ih]

theorem renderItems_eq (items : List Bencode) : renderItems items = items.flatMap render := by
  induction items with
  | nil => simp [renderItems]
  | cons item items ih => simp [renderItems, ih]

def renderField (field : Label × Bencode) : Bytes :=
  renderBytes field.1.bytes ++ field.2.render

theorem renderFields_eq (fields : List (Label × Bencode)) :
    renderFields fields = fields.flatMap renderField := by
  induction fields with
  | nil => simp [renderFields]
  | cons field fields ih =>
    obtain ⟨label, value⟩ := field
    simp [renderFields, renderField, ih]

theorem sorted_foldl_insert (fields base : List (Label × Bencode))
    (h : Ascending.Sorted base) :
    Ascending.Sorted (fields.foldl (fun d f => Ascending.insert f.1 f.2 d) base) := by
  induction fields generalizing base with
  | nil => exact h
  | cons field fields ih => exact ih _ (Ascending.sorted_insert _ _ h)

theorem record_of_sorted {fields : List (Label × Bencode)} (h : Ascending.Sorted fields) :
    record fields = .dict fields := by
  refine congrArg Bencode.dict
    (Ascending.eq_of_find? (sorted_foldl_insert fields [] .nil) h fun k => ?_)
  simp [Ascending.find?_foldl_insert h, Ascending.find?]

/-- The reader takes exactly `text` off the front of any input, and gives `x`. -/
def Reads {α : Type} (read : Reader α) (text : Bytes) (x : α) : Prop :=
  ∀ (c : Cursor) (rest : Bytes), c.rest = text ++ rest →
    read c = .ok (x, ⟨c.offset + text.length, rest⟩)

theorem reads_intUntil {mark : UInt8} {text : Bytes} {n : Int64}
    (hmark : ∀ b ∈ text, b ≠ mark) (hn : Decimal.toInt64? text = some n) :
    Reads (readIntUntil mark) (text ++ [mark]) n := by
  intro c rest hc
  have htake : c.rest.takeWhile (· != mark) = text := by
    rw [hc, List.append_assoc, List.takeWhile_append_of_pos (by simpa using hmark)]
    simp
  have hdrop : c.rest.dropWhile (· != mark) = mark :: rest := by
    rw [hc, List.append_assoc, List.dropWhile_append_of_pos (by simpa using hmark)]
    simp
  simp [readIntUntil, htake, hdrop, hn, Nat.add_assoc]

theorem exists_toInt_eq {n : Nat} (h : n < sizeLimit) : ∃ w : Int64, w.toInt = n := by
  obtain ⟨w, -, hw⟩ := Decimal.toInt64?_ofNat h
  exact ⟨w, hw⟩

theorem reads_counted {length content : Bytes}
    (hlength : Decimal.SignedNumeral length content.length)
    (hsize : content.length < sizeLimit) :
    Reads readBytes (length ++ 0x3A :: content) content := by
  intro c rest hc
  obtain ⟨w, hw⟩ := exists_toInt_eq hsize
  have hmark : ∀ b ∈ length, b ≠ 0x3A := hlength.not_mem (by decide) (by decide) (by decide)
  have hread := reads_intUntil hmark (Decimal.toInt64?_eq_some_iff.2 (hw ▸ hlength)) c
    (content ++ rest) (by simp [hc])
  have hw' : w.toInt = Int.ofNat content.length := hw
  simp [readBytes, hread, bind, Except.bind, hw']
  omega

theorem reads_bytes {content : Bytes} (h : content.length < sizeLimit) :
    Reads readBytes (renderBytes content) content :=
  reads_counted (.plain (Decimal.numeral_ofNat _)) h

def Opens (text : Bytes) : Prop := ∃ b rest, text = b :: rest ∧ b ≠ 0x65

theorem opens_renderBytes (content : Bytes) : Opens (renderBytes content) := by
  cases h : Decimal.ofNat content.length with
  | nil => exact absurd h (Decimal.ofNat_ne_nil _)
  | cons b rest =>
    have hb : Decimal.isDigit b = true :=
      Decimal.isDigit_of_mem_ofNat content.length b (by simp [h])
    exact ⟨b, rest ++ 0x3A :: content, by simp [renderBytes, h],
      Decimal.ne_of_isDigit hb (by decide)⟩

theorem opens_render (v : Bencode) : Opens v.render := by
  cases v with
  | int value => exact ⟨0x69, _, rfl, by decide⟩
  | bytes content =>
    rw [render]
    exact opens_renderBytes content
  | list items => exact ⟨0x6C, _, rfl, by decide⟩
  | dict fields => exact ⟨0x64, _, rfl, by decide⟩

theorem opens_renderField (field : Label × Bencode) : Opens (renderField field) := by
  obtain ⟨b, rest, h, hb⟩ := opens_renderBytes field.1.bytes
  exact ⟨b, rest ++ field.2.render, by simp [renderField, h], hb⟩

theorem length_le_flatMap_of_opens {α : Type} {text : α → Bytes} {xs : List α}
    (hopen : ∀ x ∈ xs, Opens (text x)) : xs.length ≤ (xs.flatMap text).length := by
  induction xs with
  | nil => simp
  | cons x xs ih =>
    obtain ⟨b, rest, h, _⟩ := hopen x (by simp)
    have hxs := ih fun y hy => hopen y (by simp [hy])
    simp only [List.flatMap_cons, List.length_cons, List.length_append, h]
    omega

theorem length_le_flatMap {α : Type} {text : α → Bytes} (hopen : ∀ x, Opens (text x))
    (xs : List α) : xs.length ≤ (xs.flatMap text).length :=
  length_le_flatMap_of_opens fun x _ => hopen x

theorem readUntilEnd_map_append {α β : Type} {item : Reader α} {text : β → Bytes} {value : β → α}
    {xs : List β} (hopen : ∀ x ∈ xs, Opens (text x))
    (h : ∀ x ∈ xs, Reads item (text x) (value x)) (limit : Nat) {c : Cursor} {rest : Bytes}
    (hc : c.rest = xs.flatMap text ++ rest) :
    readUntilEnd item (xs.length + limit) c =
      (readUntilEnd item limit ⟨c.offset + (xs.flatMap text).length, rest⟩).map
        fun p => (xs.map value ++ p.1, p.2) := by
  induction xs generalizing c with
  | nil =>
    obtain ⟨offset, unread⟩ := c
    obtain rfl : unread = rest := hc
    simp only [List.length_nil, Nat.zero_add, List.flatMap_nil, Nat.add_zero]
    cases readUntilEnd item limit ⟨offset, unread⟩ <;> rfl
  | cons x xs ih =>
    obtain ⟨b, tail, htext, hb⟩ := hopen x (by simp)
    let next : Cursor := ⟨c.offset + (text x).length, xs.flatMap text ++ rest⟩
    have hrest : c.rest = text x ++ next.rest := by simp [hc, next]
    have hitem : item c = .ok (value x, next) := h x (by simp) c _ hrest
    have hhead : c.rest = b::(tail ++ next.rest) := by rw [hrest, htext, List.cons_append]
    have hmore := ih (fun y hy => hopen y (by simp [hy])) (fun y hy => h y (by simp [hy]))
      (c := next) rfl
    rw [List.length_cons, Nat.add_right_comm, readUntilEnd, hhead]
    simp only [hb, if_false, hitem, hmore, bind, Except.bind, next, List.flatMap_cons,
      List.length_append, Nat.add_assoc]
    cases readUntilEnd item limit _ <;> rfl

theorem readUntilEnd_append {α : Type} {item : Reader α} {text : α → Bytes}
    (hopen : ∀ x, Opens (text x)) {xs : List α} (h : ∀ x ∈ xs, Reads item (text x) x)
    (limit : Nat) {c : Cursor} {rest : Bytes} (hc : c.rest = xs.flatMap text ++ rest) :
    readUntilEnd item (xs.length + limit) c =
      (readUntilEnd item limit ⟨c.offset + (xs.flatMap text).length, rest⟩).map
        fun p => (xs ++ p.1, p.2) := by
  have hread := @readUntilEnd_map_append α α item text id xs (fun x _ => hopen x) h limit c rest hc
  rwa [List.map_id] at hread

theorem reads_untilEnd {α β : Type} {item : Reader α} {text : β → Bytes} {value : β → α}
    {xs : List β} (hopen : ∀ x ∈ xs, Opens (text x))
    (h : ∀ x ∈ xs, Reads item (text x) (value x)) {limit : Nat} (hlimit : xs.length < limit) :
    Reads (readUntilEnd item limit) (xs.flatMap text ++ [0x65]) (xs.map value) := by
  intro c rest hc
  obtain ⟨more, rfl⟩ : ∃ n, limit = xs.length + (n + 1) := ⟨limit - xs.length - 1, by omega⟩
  rw [readUntilEnd_map_append hopen h (more + 1) (hc.trans (List.append_assoc _ _ _))]
  simp [readUntilEnd, Except.map, Nat.add_assoc]

theorem reads_labelled {read : Reader Bencode} {name text : Bytes} {label : Label} {v : Bencode}
    (hname : Reads readBytes name label.bytes) (hvalue : Reads read text v) :
    Reads (readField read) (name ++ text) (label, v) := by
  intro c rest hc
  let next : Cursor := ⟨c.offset + name.length, text ++ rest⟩
  have hlabel : readBytes c = .ok (label.bytes, next) := hname c _ (by simp [hc])
  have hlabel? : Label.ofBytes? label.bytes = some label := by
    rw [Label.ofBytes?, dif_pos label.wellFormed]
  have hread := hvalue next rest rfl
  simp [readField, hlabel, hread, hlabel?, bind, Except.bind, pure, Except.pure, next,
    Nat.add_assoc]

theorem reads_field {read : Reader Bencode} {field : Label × Bencode}
    (hlabel : field.1.bytes.length < sizeLimit) (h : Reads read field.2.render field.2) :
    Reads (readField read) (renderField field) field :=
  reads_labelled (reads_bytes hlabel) h

theorem readValue_nil {c : Cursor} (h : c.rest = []) (room : Nat) :
    readValue room c = .error (.unexpectedEnd c.offset) := by
  rw [readValue.eq_def]
  simp only [h]

theorem readValue_int {c : Cursor} {rest : Bytes} (h : c.rest = 0x69::rest) (room : Nat) :
    readValue room c =
      (readIntUntil 0x65 ⟨c.offset + 1, rest⟩).map fun p => (.int p.1, p.2) := by
  rw [readValue.eq_def]
  simp only [h]
  rw [if_pos trivial]
  cases readIntUntil 0x65 ⟨c.offset + 1, rest⟩ <;> rfl

theorem readValue_bytes {c : Cursor} {b : UInt8} {rest : Bytes} (h : c.rest = b::rest)
    (hb : Decimal.isDigit b = true) (room : Nat) :
    readValue room c = (readBytes c).map fun p => (.bytes p.1, p.2) := by
  have hint : b ≠ 0x69 := Decimal.ne_of_isDigit hb (by decide)
  have hlist : b ≠ 0x6C := Decimal.ne_of_isDigit hb (by decide)
  have hdict : b ≠ 0x64 := Decimal.ne_of_isDigit hb (by decide)
  rw [readValue.eq_def]
  simp only [h]
  rw [if_neg hint, if_neg hlist, if_neg hdict, if_pos hb]
  cases readBytes c <;> rfl

theorem readValue_list {c : Cursor} {rest : Bytes} (h : c.rest = 0x6C::rest) (room : Nat) :
    readValue (room + 1) c =
      (readUntilEnd (readValue room) (rest.length + 1) ⟨c.offset + 1, rest⟩).map
        fun p => (.list p.1, p.2) := by
  rw [readValue.eq_def]
  simp only [h]
  rw [if_neg (by decide), if_pos trivial]
  cases readUntilEnd (readValue room) (rest.length + 1) ⟨c.offset + 1, rest⟩ <;> rfl

theorem readValue_dict {c : Cursor} {rest : Bytes} (h : c.rest = 0x64::rest) (room : Nat) :
    readValue (room + 1) c =
      (readUntilEnd (readField (readValue room)) (rest.length + 1) ⟨c.offset + 1, rest⟩).map
        fun p => (.record p.1, p.2) := by
  rw [readValue.eq_def]
  simp only [h]
  rw [if_neg (by decide), if_neg (by decide), if_pos trivial]
  cases readUntilEnd (readField (readValue room)) (rest.length + 1) ⟨c.offset + 1, rest⟩ <;> rfl

theorem reads_int {digits : Bytes} {value : Int64}
    (hdigits : Decimal.SignedNumeral digits value.toInt) (room : Nat) :
    Reads (readValue room) (0x69 :: digits ++ [0x65]) (.int value) := by
  intro c rest hc
  have hmark : ∀ b ∈ digits, b ≠ 0x65 := hdigits.not_mem (by decide) (by decide) (by decide)
  let inner : Cursor := ⟨c.offset + 1, digits ++ 0x65 :: rest⟩
  have hhead : c.rest = 0x69 :: inner.rest := by simp [hc, inner]
  have hread := reads_intUntil hmark (Decimal.toInt64?_eq_some_iff.2 hdigits) inner rest
    (by simp [inner])
  rw [readValue_int hhead, hread]
  simp [Except.map, inner]
  omega

theorem reads_string {length content : Bytes} (hlength : Decimal.Numeral length content.length)
    (hsize : content.length < sizeLimit) (room : Nat) :
    Reads (readValue room) (length ++ 0x3A :: content) (.bytes content) := by
  intro c rest hc
  have hread := reads_counted (.plain hlength) hsize c rest hc
  obtain ⟨b, tail, rfl, hb⟩ := hlength.exists_cons
  have hhead : c.rest = b :: (tail ++ 0x3A :: content ++ rest) := by simp [hc]
  rw [readValue_bytes hhead hb, hread]
  rfl

theorem reads_list {β : Type} {text : β → Bytes} {value : β → Bencode} {items : List β}
    {room : Nat} (hopen : ∀ x ∈ items, Opens (text x))
    (h : ∀ x ∈ items, Reads (readValue room) (text x) (value x)) :
    Reads (readValue (room + 1)) (0x6C :: items.flatMap text ++ [0x65])
      (.list (items.map value)) := by
  intro c rest hc
  let inner : Cursor := ⟨c.offset + 1, items.flatMap text ++ 0x65 :: rest⟩
  have hhead : c.rest = 0x6C :: inner.rest := by simp [hc, inner]
  have hlimit : items.length < inner.rest.length + 1 := by
    have := length_le_flatMap_of_opens hopen
    simp only [inner, List.length_append]
    omega
  have hread := reads_untilEnd hopen h hlimit inner rest (by simp [inner])
  rw [readValue_list hhead, hread]
  simp [Except.map, inner]
  omega

theorem reads_dict {β : Type} {text : β → Bytes} {value : β → Label × Bencode} {fields : List β}
    {room : Nat} (hopen : ∀ x ∈ fields, Opens (text x))
    (h : ∀ x ∈ fields, Reads (readField (readValue room)) (text x) (value x)) :
    Reads (readValue (room + 1)) (0x64 :: fields.flatMap text ++ [0x65])
      (.record (fields.map value)) := by
  intro c rest hc
  let inner : Cursor := ⟨c.offset + 1, fields.flatMap text ++ 0x65 :: rest⟩
  have hhead : c.rest = 0x64 :: inner.rest := by simp [hc, inner]
  have hlimit : fields.length < inner.rest.length + 1 := by
    have := length_le_flatMap_of_opens hopen
    simp only [inner, List.length_append]
    omega
  have hread := reads_untilEnd hopen h hlimit inner rest (by simp [inner])
  rw [readValue_dict hhead, hread]
  simp [Except.map, inner]
  omega

theorem reads_rendered_list {items : List Bencode} {room : Nat}
    (h : ∀ v ∈ items, Reads (readValue room) v.render v) :
    Reads (readValue (room + 1)) (Bencode.list items).render (.list items) := by
  have hread := @reads_list _ render id items room (fun v _ => opens_render v) h
  rwa [List.map_id, ← renderItems_eq] at hread

theorem reads_rendered_dict {fields : List (Label × Bencode)} {room : Nat}
    (hsorted : Ascending.Sorted fields)
    (h : ∀ f ∈ fields, Reads (readField (readValue room)) (renderField f) f) :
    Reads (readValue (room + 1)) (Bencode.dict fields).render (.dict fields) := by
  have hread := @reads_dict _ renderField id fields room (fun f _ => opens_renderField f) h
  rwa [List.map_id, record_of_sorted hsorted, ← renderFields_eq] at hread

/-- What is written is read back, whatever follows it. -/
theorem reads_value (room : Nat) (v : Bencode) (hordered : v.Ordered) (hsized : v.Sized)
    (hdepth : v.depth ≤ room) : Reads (readValue room) v.render v := by
  induction room generalizing v with
  | zero =>
    cases v with
    | int value => exact reads_int (Decimal.signedNumeral_ofInt _) 0
    | bytes content => exact reads_string (Decimal.numeral_ofNat _) hsized 0
    | list items => simp [depth] at hdepth
    | dict fields => simp [depth] at hdepth
  | succ room ih =>
    cases v with
    | int value => exact reads_int (Decimal.signedNumeral_ofInt _) _
    | bytes content => exact reads_string (Decimal.numeral_ofNat _) hsized _
    | list items =>
      rw [depth, Nat.add_le_add_iff_right, depthItems_le_iff] at hdepth
      rw [Ordered, orderedItems_iff] at hordered
      rw [Sized, sizedItems_iff] at hsized
      exact reads_rendered_list fun v hv => ih v (hordered v hv) (hsized v hv) (hdepth v hv)
    | dict fields =>
      rw [depth, Nat.add_le_add_iff_right, depthFields_le_iff] at hdepth
      obtain ⟨hsorted, hordered⟩ := hordered
      rw [orderedFields_iff] at hordered
      rw [Sized, sizedFields_iff] at hsized
      exact reads_rendered_dict hsorted fun f hf => reads_field (hsized f hf).1
        (ih f.2 (hordered f hf) (hsized f hf).2 (hdepth f hf))

theorem decode_render {v : Bencode} (hordered : v.Ordered) (hsized : v.Sized)
    (hdepth : v.depth ≤ maxDepth) : decode v.render = .ok v := by
  have hread := reads_value maxDepth v hordered hsized hdepth ⟨0, v.render⟩ [] (by simp)
  simp [decode, hread, bind, Except.bind, pure, Except.pure]

end ChainState.Bencode
