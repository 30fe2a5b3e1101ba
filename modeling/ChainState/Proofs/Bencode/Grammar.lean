import ChainState.Proofs.Bencode.RoundTrip
import ChainState.Proofs.Numerals
import ChainState.Proofs.Since
import ChainState.Proofs.Utf8

/-!
# The grammar that the reader follows

A grammar says which texts spell which value: numbers behind at most one sign,
byte strings behind their length, lists, and dictionaries whose labels come in
any order and any number of times. The reader takes what the grammar derives
with lists and dictionaries nested as deep as there is room, and refuses every
other text.
-/

set_option autoImplicit false

namespace ChainState

def Label.ofText (name : String) : Label :=
  ⟨Bytes.ofString name, (Utf8.wellFormed_iff _).2 ⟨name, rfl⟩⟩

namespace Bencode

open Decimal (Numeral SignedNumeral)

/-- A part of a text, and what it stands for. -/
structure Spelling (α : Type) where
  text : Bytes
  value : α

/-- The field with the label that no later field has as well. -/
def LastField (fields : List (Label × Bencode)) (label : Label) (value : Bencode) : Prop :=
  ∃ before after, fields = before ++ (label, value)::after ∧ ∀ f ∈ after, f.1 ≠ label

structure KeepsLast (fields kept : List (Label × Bencode)) : Prop where
  sorted : Ascending.Sorted kept
  mem_iff : ∀ label value, (label, value) ∈ kept ↔ LastField fields label value

/-- A label behind its length. A length is no negative number, but may be
written with a sign. -/
inductive SpellsLabel : Bytes → Label → Prop
  | mk {length : Bytes} (name : String)
    (hlength : SignedNumeral length (Bytes.ofString name).length)
    (hsize : (Bytes.ofString name).length < sizeLimit) :
    SpellsLabel (length ++ 0x3A :: Bytes.ofString name) (.ofText name)

/-- The texts of values whose lists and dictionaries nest at most `room` deep. -/
inductive Spells : Nat → Bytes → Bencode → Prop
  | int {room : Nat} {digits : Bytes} {value : Int64} (h : SignedNumeral digits value.toInt) :
    Spells room (0x69 :: digits ++ [0x65]) (.int value)
  | bytes {room : Nat} {length content : Bytes} (hlength : Numeral length content.length)
    (hsize : content.length < sizeLimit) :
    Spells room (length ++ 0x3A :: content) (.bytes content)
  | list {room : Nat} (items : List (Spelling Bencode))
    (h : ∀ p ∈ items, Spells room p.text p.value) :
    Spells (room + 1) (0x6C :: items.flatMap Spelling.text ++ [0x65])
      (.list (items.map Spelling.value))
  | dict {room : Nat} (fields : List (Spelling Label × Spelling Bencode))
    {kept : List (Label × Bencode)} (hlabel : ∀ p ∈ fields, SpellsLabel p.1.text p.1.value)
    (hvalue : ∀ p ∈ fields, Spells room p.2.text p.2.value)
    (hkept : KeepsLast (fields.map fun p => (p.1.value, p.2.value)) kept) :
    Spells (room + 1) (0x64 :: (fields.flatMap fun p => p.1.text ++ p.2.text) ++ [0x65])
      (.dict kept)

theorem lastField_iff_since {fields : List (Label × Bencode)} {label : Label} {value : Bencode} :
    LastField fields label value ↔ Since (· = (label, value)) (·.1 = label) fields := by
  constructor
  · rintro ⟨before, after, heq, hafter⟩
    exact ⟨before, _, after, heq, rfl, hafter⟩
  · rintro ⟨before, _, after, heq, rfl, hafter⟩
    exact ⟨before, after, heq, hafter⟩

theorem lastField_concat {fields : List (Label × Bencode)} {f : Label × Bencode} {label : Label}
    {value : Bencode} : LastField (fields ++ [f]) label value ↔
      f = (label, value) ∨ f.1 ≠ label ∧ LastField fields label value := by
  rw [lastField_iff_since, lastField_iff_since, since_concat, and_comm]

theorem find?_foldl_insert_iff (fields : List (Label × Bencode)) (label : Label)
    (value : Bencode) :
    Ascending.find? label (fields.foldl (fun d f => Ascending.insert f.1 f.2 d) []) =
      some value ↔ LastField fields label value := by
  induction fields using List.reverseRecOn with
  | nil => simp [Ascending.find?, LastField]
  | append_singleton fields f ih =>
    obtain ⟨name, v⟩ := f
    rw [lastField_concat, ← ih, List.foldl_append, List.foldl_cons, List.foldl_nil,
      Ascending.find?_insert]
    by_cases h : label = name
    · simp [h]
    · simp [h, Ne.symm h]

theorem keepsLast_iff {fields kept : List (Label × Bencode)} :
    KeepsLast fields kept ↔ record fields = .dict kept := by
  have hsorted := sorted_foldl_insert fields [] .nil
  constructor
  · rintro ⟨hkept, hmem⟩
    refine congrArg Bencode.dict (Ascending.eq_of_find? hsorted hkept fun label => ?_)
    refine Option.ext fun value => ?_
    rw [find?_foldl_insert_iff, Ascending.find?_eq_some_iff hkept]
    exact (hmem label value).symm
  · intro h
    obtain rfl := Bencode.dict.inj h
    refine ⟨hsorted, fun label value => ?_⟩
    rw [← Ascending.find?_eq_some_iff hsorted]
    exact find?_foldl_insert_iff fields label value

theorem Spells.opens {room : Nat} {text : Bytes} {v : Bencode} (h : Spells room text v) :
    Opens text := by
  cases h with
  | int h => exact ⟨0x69, _, rfl, by decide⟩
  | @bytes _ length content hlength hsize =>
    obtain ⟨b, digits, rfl, hb⟩ := hlength.exists_cons
    exact ⟨b, digits ++ 0x3A :: content, rfl, Decimal.ne_of_isDigit hb (by decide)⟩
  | list items h => exact ⟨0x6C, _, rfl, by decide⟩
  | dict fields hlabel hvalue hkept => exact ⟨0x64, _, rfl, by decide⟩

theorem SpellsLabel.reads {text : Bytes} {label : Label} (h : SpellsLabel text label) :
    Reads readBytes text label.bytes := by
  cases h with
  | mk name hlength hsize => exact reads_counted hlength hsize

theorem SpellsLabel.opens {text : Bytes} {label : Label} (h : SpellsLabel text label)
    (rest : Bytes) : Opens (text ++ rest) := by
  cases h with
  | mk name hlength hsize =>
    obtain ⟨b, digits, rfl, hb⟩ := hlength.exists_cons
    refine ⟨b, _, rfl, ?_⟩
    rintro rfl
    exact absurd hb (by decide)

theorem Spells.reads {room : Nat} {text : Bytes} {v : Bencode} (h : Spells room text v) :
    Reads (readValue room) text v := by
  induction h with
  | int h => exact reads_int h _
  | bytes hlength hsize => exact reads_string hlength hsize _
  | list items h ih => exact reads_list (fun p hp => (h p hp).opens) ih
  | @dict room fields kept hlabel hvalue hkept ih =>
    rw [← keepsLast_iff.1 hkept]
    refine reads_dict (fun p hp => (hlabel p hp).opens p.2.text) fun p hp => ?_
    exact reads_labelled (hlabel p hp).reads (ih p hp)

/-- Between the two cursors stands a text of the value. -/
def Between {α : Type} (spells : Bytes → α → Prop) (c next : Cursor) (x : α) : Prop :=
  ∃ text, spells text x ∧ c.rest = text ++ next.rest ∧ next.offset = c.offset + text.length

def Follows {α : Type} (read : Reader α) (spells : Bytes → α → Prop) : Prop :=
  ∀ (c next : Cursor) (x : α), read c = .ok (x, next) → Between spells c next x

theorem exists_of_bind {α β : Type} {read : Except ReadError (α × Cursor)}
    {more : α × Cursor → Except ReadError β} {y : β} (h : read >>= more = .ok y) :
    ∃ x c, read = .ok (x, c) ∧ more (x, c) = .ok y := by
  cases read with
  | error e => cases h
  | ok p => exact ⟨p.1, p.2, rfl, h⟩

theorem exists_of_map {α β : Type} {read : Except ReadError (α × Cursor)} {f : α × Cursor → β}
    {y : β} (h : read.map f = .ok y) : ∃ x c, read = .ok (x, c) ∧ f (x, c) = y := by
  cases read with
  | error e => cases h
  | ok p => exact ⟨p.1, p.2, rfl, Except.ok.inj h⟩

theorem follows_intUntil (mark : UInt8) :
    Follows (readIntUntil mark) fun text n =>
      ∃ digits, text = digits ++ [mark] ∧ SignedNumeral digits n.toInt := by
  intro c next n h
  simp only [readIntUntil] at h
  split at h
  · cases h
  · next b rest hdrop =>
    have hne : c.rest.dropWhile (· != mark) ≠ [] := by rw [hdrop]; exact List.cons_ne_nil _ _
    have hb : b = mark := by
      have := List.head_dropWhile_not (· != mark) hne
      simpa [hdrop] using this
    split at h
    · cases h
    · next w hw =>
      obtain ⟨rfl, rfl⟩ := Prod.mk.inj (Except.ok.inj h)
      refine ⟨_, ⟨c.rest.takeWhile (· != mark), rfl, Decimal.toInt64?_eq_some_iff.1 hw⟩, ?_, ?_⟩
      · rw [List.append_assoc, List.singleton_append, ← hb, ← hdrop, hb,
          List.takeWhile_append_dropWhile]
      · simp [Nat.add_assoc]

theorem follows_bytes :
    Follows readBytes fun text content =>
      ∃ length, text = length ++ 0x3A :: content ∧ SignedNumeral length content.length ∧
        content.length < sizeLimit := by
  intro c next content h
  obtain ⟨w, body, hw, h⟩ := exists_of_bind h
  obtain ⟨_, ⟨length, rfl, hlength⟩, hrest, hoffset⟩ := follows_intUntil _ _ _ _ hw
  simp only at h
  split at h
  · cases h
  · next n hn =>
    split at h
    · next htake =>
      obtain ⟨rfl, rfl⟩ := Prod.mk.inj (Except.ok.inj h)
      have hn' : w.toInt = ((body.rest.take n).length : Int) := by rw [htake]; exact hn
      refine ⟨_, ⟨length, rfl, hn' ▸ hlength, ?_⟩, ?_, ?_⟩
      · have := Int64.toInt_lt w
        simp only [sizeLimit]
        omega
      · simp [hrest]
      · simp [hoffset, htake, Nat.add_assoc]
        omega
    · cases h

theorem follows_untilEnd {α : Type} {item : Reader α} {spells : Bytes → α → Prop}
    (h : Follows item spells) (limit : Nat) :
    Follows (readUntilEnd item limit) fun text xs => ∃ parts : List (Spelling α),
      (∀ p ∈ parts, spells p.text p.value) ∧ xs = parts.map Spelling.value ∧
        text = parts.flatMap Spelling.text ++ [0x65] := by
  induction limit with
  | zero => intro c next xs hread; cases hread
  | succ limit ih =>
    intro c next xs hread
    rw [readUntilEnd] at hread
    split at hread
    · cases hread
    · next b rest hrest =>
      split at hread
      · next hb =>
        obtain ⟨rfl, rfl⟩ := Prod.mk.inj (Except.ok.inj hread)
        exact ⟨_, ⟨[], by simp, rfl, rfl⟩, by simp [hrest, hb], rfl⟩
      · obtain ⟨x, middle, hitem, hread⟩ := exists_of_bind hread
        obtain ⟨xs, last, hmore, hread⟩ := exists_of_bind hread
        obtain ⟨rfl, rfl⟩ := Prod.mk.inj (Except.ok.inj hread)
        obtain ⟨front, hfront, hc, hoffset⟩ := h _ _ _ hitem
        obtain ⟨_, ⟨parts, hparts, rfl, rfl⟩, hmiddle, hlast⟩ := ih _ _ _ hmore
        refine ⟨_, ⟨⟨front, x⟩::parts, List.forall_mem_cons.2 ⟨hfront, hparts⟩, rfl, rfl⟩, ?_, ?_⟩
        · simp [hc, hmiddle]
        · simp [hlast, hoffset, Nat.add_assoc]

theorem spellsLabel_of_counted {length content : Bytes} {label : Label}
    (hlength : SignedNumeral length content.length) (hsize : content.length < sizeLimit)
    (hlabel : Label.ofBytes? content = some label) :
    SpellsLabel (length ++ 0x3A :: content) label := by
  rw [Label.ofBytes?] at hlabel
  split at hlabel
  · next hformed =>
    obtain rfl := Option.some.inj hlabel
    obtain ⟨name, rfl⟩ := (Utf8.wellFormed_iff content).1 hformed
    exact .mk name hlength hsize
  · cases hlabel

theorem follows_field {read : Reader Bencode} {spells : Bytes → Bencode → Prop}
    (h : Follows read spells) :
    Follows (readField read) fun text field => ∃ name value, text = name ++ value ∧
      SpellsLabel name field.1 ∧ spells value field.2 := by
  intro c next field hread
  obtain ⟨content, middle, hcontent, hread⟩ := exists_of_bind hread
  obtain ⟨_, ⟨length, rfl, hlength, hsize⟩, hc, hoffset⟩ := follows_bytes _ _ _ hcontent
  simp only at hread
  split at hread
  · cases hread
  · next label hlabel =>
    obtain ⟨v, last, hv, hread⟩ := exists_of_bind hread
    obtain ⟨rfl, rfl⟩ := Prod.mk.inj (Except.ok.inj hread)
    obtain ⟨text, htext, hmiddle, hlast⟩ := h _ _ _ hv
    refine ⟨_, ⟨_, text, rfl, spellsLabel_of_counted hlength hsize hlabel, htext⟩, ?_, ?_⟩
    · simp [hc, hmiddle]
    · simp only [hlast, hoffset, List.length_append]
      omega

theorem first_of_readValue {room : Nat} {c next : Cursor} {v : Bencode}
    (h : readValue room c = .ok (v, next)) :
    ∃ b rest, c.rest = b::rest ∧
      (b = 0x69 ∨ b = 0x6C ∨ b = 0x64 ∨ Decimal.isDigit b = true) := by
  rw [readValue.eq_def] at h
  cases hc : c.rest with
  | nil => simp [hc] at h
  | cons b rest =>
    refine ⟨b, rest, rfl, ?_⟩
    simp only [hc] at h
    split_ifs at h with hint hlist hdict hdigit
    · exact .inl hint
    · exact .inr (.inl hlist)
    · exact .inr (.inr (.inl hdict))
    · exact .inr (.inr (.inr hdigit))

theorem between_int {room : Nat} {c next : Cursor} {rest : Bytes} {v : Bencode}
    (hc : c.rest = 0x69::rest) (h : readValue room c = .ok (v, next)) :
    Between (Spells room) c next v := by
  rw [readValue_int hc] at h
  obtain ⟨n, last, hn, h⟩ := exists_of_map h
  obtain ⟨rfl, rfl⟩ := Prod.mk.inj h
  obtain ⟨_, ⟨digits, rfl, hdigits⟩, hrest, hoffset⟩ := follows_intUntil _ _ _ _ hn
  refine ⟨_, .int hdigits, ?_, ?_⟩
  · simpa [hc] using hrest
  · simp only [hoffset, List.length_append, List.cons_append, List.length_cons]
    omega

theorem between_bytes {room : Nat} {c next : Cursor} {b : UInt8} {rest : Bytes} {v : Bencode}
    (hc : c.rest = b::rest) (hb : Decimal.isDigit b = true)
    (h : readValue room c = .ok (v, next)) : Between (Spells room) c next v := by
  rw [readValue_bytes hc hb] at h
  obtain ⟨content, last, hcontent, h⟩ := exists_of_map h
  obtain ⟨rfl, rfl⟩ := Prod.mk.inj h
  obtain ⟨_, ⟨length, rfl, hlength, hsize⟩, hrest, hoffset⟩ := follows_bytes _ _ _ hcontent
  obtain ⟨first, digits, rfl, -⟩ := hlength.exists_cons
  obtain rfl : first = b := by
    rw [hc] at hrest
    exact (List.cons.inj hrest).1.symm
  obtain ⟨n, hn, hnumeral⟩ := hlength.exists_numeral hb
  obtain rfl : content.length = n := Int.ofNat.inj hn
  exact ⟨_, .bytes hnumeral hsize, hrest, hoffset⟩

theorem between_list {room : Nat} {c next : Cursor} {rest : Bytes} {v : Bencode}
    (ih : Follows (readValue room) (Spells room)) (hc : c.rest = 0x6C::rest)
    (h : readValue (room + 1) c = .ok (v, next)) : Between (Spells (room + 1)) c next v := by
  rw [readValue_list hc] at h
  obtain ⟨items, last, hitems, h⟩ := exists_of_map h
  obtain ⟨rfl, rfl⟩ := Prod.mk.inj h
  obtain ⟨_, ⟨parts, hparts, rfl, rfl⟩, hrest, hoffset⟩ := follows_untilEnd ih _ _ _ _ hitems
  refine ⟨_, .list parts hparts, ?_, ?_⟩
  · simpa [hc] using hrest
  · simp only [hoffset, List.length_append, List.cons_append, List.length_cons]
    omega

theorem exists_fields {room : Nat} {parts : List (Spelling (Label × Bencode))}
    (h : ∀ p ∈ parts, ∃ name value, p.text = name ++ value ∧ SpellsLabel name p.value.1 ∧
      Spells room value p.value.2) :
    ∃ fields : List (Spelling Label × Spelling Bencode),
      (∀ p ∈ fields, SpellsLabel p.1.text p.1.value) ∧
      (∀ p ∈ fields, Spells room p.2.text p.2.value) ∧
      (fields.map fun p => (p.1.value, p.2.value)) = parts.map Spelling.value ∧
      (fields.flatMap fun p => p.1.text ++ p.2.text) = parts.flatMap Spelling.text := by
  induction parts with
  | nil => exact ⟨[], by simp, by simp, rfl, rfl⟩
  | cons part parts ih =>
    obtain ⟨name, value, htext, hname, hvalue⟩ := h part (by simp)
    obtain ⟨fields, hnames, hvalues, hmap, hflat⟩ := ih fun p hp => h p (by simp [hp])
    refine ⟨(⟨name, part.value.1⟩, ⟨value, part.value.2⟩)::fields,
      List.forall_mem_cons.2 ⟨hname, hnames⟩, List.forall_mem_cons.2 ⟨hvalue, hvalues⟩, ?_, ?_⟩
    · simp [hmap]
    · simp [hflat, htext]

theorem between_dict {room : Nat} {c next : Cursor} {rest : Bytes} {v : Bencode}
    (ih : Follows (readValue room) (Spells room)) (hc : c.rest = 0x64::rest)
    (h : readValue (room + 1) c = .ok (v, next)) : Between (Spells (room + 1)) c next v := by
  rw [readValue_dict hc] at h
  obtain ⟨fields, last, hfields, h⟩ := exists_of_map h
  obtain ⟨rfl, rfl⟩ := Prod.mk.inj h
  obtain ⟨_, ⟨parts, hparts, rfl, rfl⟩, hrest, hoffset⟩ :=
    follows_untilEnd (follows_field ih) _ _ _ _ hfields
  obtain ⟨fields, hnames, hvalues, hmap, hflat⟩ := exists_fields hparts
  rw [← hflat] at hrest hoffset
  refine ⟨_, .dict fields hnames hvalues (keepsLast_iff.2 (by rw [hmap]; rfl)), ?_, ?_⟩
  · simpa [hc] using hrest
  · simp only [hoffset, List.length_append, List.cons_append, List.length_cons]
    omega

theorem follows_value (room : Nat) : Follows (readValue room) (Spells room) := by
  induction room with
  | zero =>
    intro c next v h
    obtain ⟨b, rest, hc, rfl | rfl | rfl | hb⟩ := first_of_readValue h
    · exact between_int hc h
    · simp [readValue.eq_def, hc] at h
    · simp [readValue.eq_def, hc] at h
    · exact between_bytes hc hb h
  | succ room ih =>
    intro c next v h
    obtain ⟨b, rest, hc, rfl | rfl | rfl | hb⟩ := first_of_readValue h
    · exact between_int hc h
    · exact between_list ih hc h
    · exact between_dict ih hc h
    · exact between_bytes hc hb h

/-- The reader gives a value exactly for the texts that spell it with lists and
dictionaries nested at most 64 deep, and refuses a text that spells none. -/
theorem decode_eq_ok_iff_spells (input : Bytes) :
    (∀ v, decode input = .ok v ↔ Spells 64 input v) ∧
      ((∃ e, decode input = .error e) ↔ ∀ v, ¬ Spells 64 input v) := by
  have hiff (v : Bencode) : decode input = .ok v ↔ Spells 64 input v := by
    constructor
    · intro h
      obtain ⟨w, c, hread, h⟩ := exists_of_bind h
      simp only at h
      split at h
      · next hend =>
        obtain rfl := Except.ok.inj h
        obtain ⟨text, htext, hinput, -⟩ := follows_value _ _ _ _ hread
        obtain rfl : input = text := by rw [← List.append_nil text, ← hend, ← hinput]
        exact htext
      · cases h
    · intro h
      have hread := h.reads ⟨0, input⟩ [] (List.append_nil input).symm
      simp [decode, maxDepth, hread, bind, Except.bind, pure, Except.pure]
  refine ⟨hiff, ?_⟩
  simp only [← hiff]
  cases decode input <;> simp

-- `d+1:ai1e1:ai-02ee`: a label may have a sign, and of two equal ones the later counts
example : decode [0x64, 0x2B, 0x31, 0x3A, 0x61, 0x69, 0x31, 0x65, 0x31, 0x3A, 0x61, 0x69, 0x2D,
    0x30, 0x32, 0x65, 0x65] = .ok (.dict [(.ascii ['a'], .int (-2))]) := by
  cbv

end Bencode

end ChainState
