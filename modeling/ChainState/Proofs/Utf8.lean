import ChainState.Text.Utf8
import Mathlib

/-!
# Well-formed bytes are texts

The table of byte ranges takes exactly the bytes of the texts: the encoding of
every character passes, and whatever passes is the encoding of a character
followed by something that passes again. The arithmetic is that of code points
cut into groups of six bits.
-/

set_option autoImplicit false

namespace ChainState

namespace Bytes

theorem toList_loop (bytes : ByteArray) (i : Nat) (front : Bytes) :
    ByteArray.toList.loop bytes i front = front.reverse ++ bytes.data.toList.drop i := by
  fun_induction ByteArray.toList.loop bytes i front with
  | case1 i front hi ih =>
    have hlt : i < bytes.data.toList.length := hi
    have hget : bytes.get! i = bytes.data.toList[i] := by
      obtain ⟨data⟩ := bytes
      exact getElem!_pos data i hi
    rw [ih, List.drop_eq_getElem_cons hlt, hget, List.reverse_cons, List.append_assoc,
      List.singleton_append]
  | case2 i front hi =>
    rw [List.drop_eq_nil_of_le (Nat.le_of_not_lt hi), List.append_nil]

theorem ofString_eq (text : String) :
    ofString text = text.toList.flatMap String.utf8EncodeChar := by
  rw [ofString, ByteArray.toList, toList_loop, String.toUTF8_eq_toByteArray,
    ← String.utf8Encode_toList, List.utf8Encode, List.toList_data_toByteArray]
  rfl

end Bytes

namespace Utf8

theorem owed?_eq (b : UInt8) : owed? b =
    if b.toNat ≤ 0x7F then some []
    else if 0xC2 ≤ b.toNat ∧ b.toNat ≤ 0xDF then some [continuation]
    else if b.toNat = 0xE0 then some [⟨0xA0, 0xBF⟩, continuation]
    else if b.toNat = 0xED then some [⟨0x80, 0x9F⟩, continuation]
    else if 0xE1 ≤ b.toNat ∧ b.toNat ≤ 0xEF then some [continuation, continuation]
    else if b.toNat = 0xF0 then some [⟨0x90, 0xBF⟩, continuation, continuation]
    else if 0xF1 ≤ b.toNat ∧ b.toNat ≤ 0xF3 then some [continuation, continuation, continuation]
    else if b.toNat = 0xF4 then some [⟨0x80, 0x8F⟩, continuation, continuation]
    else none := by
  simp only [owed?, UInt8.le_iff_toNat_le, ← UInt8.toNat_inj]
  rfl

def Continues (b : UInt8) : Prop := 0x80 ≤ b.toNat ∧ b.toNat ≤ 0xBF

theorem scan_owed {r : ByteRange} {P : UInt8 → Prop}
    (h : ∀ b, r.low.toNat ≤ b.toNat ∧ b.toNat ≤ r.high.toNat ↔ P b) (ranges : List ByteRange)
    (rest : Bytes) : scan (r::ranges) rest = true ↔
      ∃ b more, rest = b::more ∧ P b ∧ scan ranges more = true := by
  cases rest with
  | nil => simp [scan]
  | cons b more => simp [scan, ByteRange.contains, UInt8.le_iff_toNat_le, ← h]

theorem scan_continuation (ranges : List ByteRange) (rest : Bytes) :
    scan (continuation::ranges) rest = true ↔
      ∃ b more, rest = b::more ∧ Continues b ∧ scan ranges more = true :=
  scan_owed (fun _ => Iff.rfl) ranges rest

theorem scan_one {a : UInt8} (h : a.toNat ≤ 0x7F) (rest : Bytes) :
    scan [] (a::rest) = true ↔ scan [] rest = true := by
  rw [scan, owed?_eq, if_pos h]

theorem scan_two {a : UInt8} (h : 0xC2 ≤ a.toNat ∧ a.toNat ≤ 0xDF) (rest : Bytes) :
    scan [] (a::rest) = true ↔
      ∃ b more, rest = b::more ∧ Continues b ∧ scan [] more = true := by
  rw [scan, owed?_eq, if_neg (by omega), if_pos h]
  exact scan_continuation [] rest

theorem scan_three {a : UInt8} (h : 0xE0 ≤ a.toNat ∧ a.toNat ≤ 0xEF) (rest : Bytes) :
    scan [] (a::rest) = true ↔ ∃ b more, rest = b::more ∧
      (Continues b ∧ (a.toNat = 0xE0 → 0xA0 ≤ b.toNat) ∧ (a.toNat = 0xED → b.toNat ≤ 0x9F)) ∧
      scan [continuation] more = true := by
  rw [scan, owed?_eq, if_neg (by omega), if_neg (by omega)]
  simp only [Continues]
  split_ifs
  · exact scan_owed (fun b => by simp only [UInt8.reduceToNat]; omega) _ rest
  · exact scan_owed (fun b => by simp only [UInt8.reduceToNat]; omega) _ rest
  · exact scan_owed (fun b => by simp only [continuation, UInt8.reduceToNat]; omega) _ rest
  all_goals omega

theorem scan_four {a : UInt8} (h : 0xF0 ≤ a.toNat ∧ a.toNat ≤ 0xF4) (rest : Bytes) :
    scan [] (a::rest) = true ↔ ∃ b more, rest = b::more ∧
      (Continues b ∧ (a.toNat = 0xF0 → 0x90 ≤ b.toNat) ∧ (a.toNat = 0xF4 → b.toNat ≤ 0x8F)) ∧
      scan [continuation, continuation] more = true := by
  rw [scan, owed?_eq, if_neg (by omega), if_neg (by omega), if_neg (by omega), if_neg (by omega),
    if_neg (by omega)]
  simp only [Continues]
  split_ifs
  · exact scan_owed (fun b => by simp only [UInt8.reduceToNat]; omega) _ rest
  · exact scan_owed (fun b => by simp only [continuation, UInt8.reduceToNat]; omega) _ rest
  · exact scan_owed (fun b => by simp only [UInt8.reduceToNat]; omega) _ rest
  · omega

theorem first_of_scan {a : UInt8} {rest : Bytes} (h : scan [] (a::rest) = true) :
    a.toNat ≤ 0x7F ∨ (0xC2 ≤ a.toNat ∧ a.toNat ≤ 0xDF) ∨ (0xE0 ≤ a.toNat ∧ a.toNat ≤ 0xEF) ∨
      (0xF0 ≤ a.toNat ∧ a.toNat ≤ 0xF4) := by
  by_contra hnone
  rw [scan, owed?_eq, if_neg (by omega), if_neg (by omega), if_neg (by omega), if_neg (by omega),
    if_neg (by omega), if_neg (by omega), if_neg (by omega), if_neg (by omega)] at h
  cases h

theorem toNat_ofNat {n : Nat} (h : n < 256) : (UInt8.ofNat n).toNat = n :=
  UInt8.toNat_ofNat_of_lt' h

theorem scan_encode (c : Char) {rest : Bytes} (hrest : scan [] rest = true) :
    scan [] (String.utf8EncodeChar c ++ rest) = true := by
  have hcode : c.val.toNat < 0xD800 ∨ 0xDFFF < c.val.toNat ∧ c.val.toNat < 0x110000 := c.valid
  unfold String.utf8EncodeChar
  generalize c.val.toNat = v at hcode
  simp only
  split_ifs with h1 h2 h3
  · have ha := @toNat_ofNat v (by omega)
    exact (scan_one (by omega) rest).2 hrest
  · have ha := @toNat_ofNat (v / 64 % 32 + 0xC0) (by omega)
    have hb := @toNat_ofNat (v % 64 + 0x80) (by omega)
    refine (scan_two (by omega) _).2 ⟨_, _, rfl, ?_, hrest⟩
    unfold Continues
    omega
  · have ha := @toNat_ofNat (v / 4096 % 16 + 0xE0) (by omega)
    have hb := @toNat_ofNat (v / 64 % 64 + 0x80) (by omega)
    have hc := @toNat_ofNat (v % 64 + 0x80) (by omega)
    refine (scan_three (by omega) _).2 ⟨_, _, rfl, ?_, (scan_continuation _ _).2
      ⟨_, _, rfl, ?_, hrest⟩⟩
    all_goals unfold Continues; omega
  · have ha := @toNat_ofNat (v / 262144 % 8 + 0xF0) (by omega)
    have hb := @toNat_ofNat (v / 4096 % 64 + 0x80) (by omega)
    have hc := @toNat_ofNat (v / 64 % 64 + 0x80) (by omega)
    have hd := @toNat_ofNat (v % 64 + 0x80) (by omega)
    refine (scan_four (by omega) _).2 ⟨_, _, rfl, ?_, (scan_continuation _ _).2
      ⟨_, _, rfl, ?_, (scan_continuation _ _).2 ⟨_, _, rfl, ?_, hrest⟩⟩⟩
    all_goals unfold Continues; omega

theorem exists_char {v : Nat} (h : v < 0xD800 ∨ 0xDFFF < v ∧ v < 0x110000) :
    ∃ c : Char, c.val.toNat = v := by
  have hv : (UInt32.ofNat v).toNat = v := UInt32.toNat_ofNat_of_lt' (by
    have : UInt32.size = 4294967296 := rfl
    omega)
  exact ⟨⟨UInt32.ofNat v, by rw [UInt32.isValidChar, hv]; exact h⟩, hv⟩

theorem ofNat_eq {n : Nat} {b : UInt8} (h : n = b.toNat) : UInt8.ofNat n = b := by
  rw [h, UInt8.ofNat_toNat]

theorem exists_encode_two {a b : UInt8} (ha : 0xC2 ≤ a.toNat ∧ a.toNat ≤ 0xDF)
    (hb : Continues b) : ∃ c, String.utf8EncodeChar c = [a, b] := by
  unfold Continues at hb
  obtain ⟨c, hc⟩ := @exists_char ((a.toNat - 0xC0) * 64 + (b.toNat - 0x80)) (by omega)
  refine ⟨c, ?_⟩
  simp only [String.utf8EncodeChar, hc]
  rw [if_neg (by omega), if_pos (by omega), ofNat_eq (b := a) (by omega),
    ofNat_eq (b := b) (by omega)]

theorem exists_encode_three {a b c : UInt8} (ha : 0xE0 ≤ a.toNat ∧ a.toNat ≤ 0xEF)
    (hb : Continues b ∧ (a.toNat = 0xE0 → 0xA0 ≤ b.toNat) ∧ (a.toNat = 0xED → b.toNat ≤ 0x9F))
    (hc : Continues c) : ∃ d, String.utf8EncodeChar d = [a, b, c] := by
  unfold Continues at hb hc
  obtain ⟨d, hd⟩ := @exists_char
    ((a.toNat - 0xE0) * 4096 + (b.toNat - 0x80) * 64 + (c.toNat - 0x80)) (by omega)
  refine ⟨d, ?_⟩
  simp only [String.utf8EncodeChar, hd]
  rw [if_neg (by omega), if_neg (by omega), if_pos (by omega), ofNat_eq (b := a) (by omega),
    ofNat_eq (b := b) (by omega), ofNat_eq (b := c) (by omega)]

theorem exists_encode_four {a b c d : UInt8} (ha : 0xF0 ≤ a.toNat ∧ a.toNat ≤ 0xF4)
    (hb : Continues b ∧ (a.toNat = 0xF0 → 0x90 ≤ b.toNat) ∧ (a.toNat = 0xF4 → b.toNat ≤ 0x8F))
    (hc : Continues c) (hd : Continues d) : ∃ e, String.utf8EncodeChar e = [a, b, c, d] := by
  unfold Continues at hb hc hd
  obtain ⟨e, he⟩ := @exists_char ((a.toNat - 0xF0) * 262144 + (b.toNat - 0x80) * 4096 +
    (c.toNat - 0x80) * 64 + (d.toNat - 0x80)) (by omega)
  refine ⟨e, ?_⟩
  simp only [String.utf8EncodeChar, he]
  rw [if_neg (by omega), if_neg (by omega), if_neg (by omega), ofNat_eq (b := a) (by omega),
    ofNat_eq (b := b) (by omega), ofNat_eq (b := c) (by omega), ofNat_eq (b := d) (by omega)]

theorem exists_encode {a : UInt8} {rest : Bytes} (h : scan [] (a::rest) = true) :
    ∃ c more, a::rest = String.utf8EncodeChar c ++ more ∧ scan [] more = true := by
  rcases first_of_scan h with ha | ha | ha | ha
  · obtain ⟨c, hc⟩ := @exists_char a.toNat (by omega)
    refine ⟨c, rest, ?_, (scan_one ha rest).1 h⟩
    simp [String.utf8EncodeChar, hc, ha]
  · obtain ⟨b, more, rfl, hb, hmore⟩ := (scan_two ha rest).1 h
    obtain ⟨d, hd⟩ := exists_encode_two ha hb
    exact ⟨d, more, by rw [hd]; rfl, hmore⟩
  · obtain ⟨b, more, rfl, hb, hmore⟩ := (scan_three ha rest).1 h
    obtain ⟨c, more, rfl, hc, hmore⟩ := (scan_continuation _ _).1 hmore
    obtain ⟨d, hd⟩ := exists_encode_three ha hb hc
    exact ⟨d, more, by rw [hd]; rfl, hmore⟩
  · obtain ⟨b, more, rfl, hb, hmore⟩ := (scan_four ha rest).1 h
    obtain ⟨c, more, rfl, hc, hmore⟩ := (scan_continuation _ _).1 hmore
    obtain ⟨d, more, rfl, hd, hmore⟩ := (scan_continuation _ _).1 hmore
    obtain ⟨e, he⟩ := exists_encode_four ha hb hc hd
    exact ⟨e, more, by rw [he]; rfl, hmore⟩

theorem wellFormed_flatMap (chars : List Char) :
    wellFormed (chars.flatMap String.utf8EncodeChar) = true := by
  induction chars with
  | nil => rfl
  | cons c chars ih => exact scan_encode c ih

theorem exists_flatMap (bytes : Bytes) (h : wellFormed bytes = true) :
    ∃ chars : List Char, chars.flatMap String.utf8EncodeChar = bytes := by
  induction hlength : bytes.length using Nat.strongRecOn generalizing bytes with
  | _ n ih =>
    cases bytes with
    | nil => exact ⟨[], rfl⟩
    | cons a rest =>
      obtain ⟨c, more, heq, hmore⟩ := exists_encode h
      have hshort : more.length < n := by
        have hc := Char.utf8Size_pos c
        rw [← hlength, heq, List.length_append, String.length_utf8EncodeChar]
        omega
      obtain ⟨chars, hchars⟩ := ih more.length hshort more hmore rfl
      exact ⟨c::chars, by rw [List.flatMap_cons, hchars, heq]⟩

/-- Bytes are well-formed if they are those of a text. -/
theorem wellFormed_iff (bytes : Bytes) :
    wellFormed bytes = true ↔ ∃ text : String, Bytes.ofString text = bytes := by
  constructor
  · intro h
    obtain ⟨chars, hchars⟩ := exists_flatMap bytes h
    exact ⟨String.ofList chars, by rw [Bytes.ofString_eq, String.toList_ofList, hchars]⟩
  · rintro ⟨text, rfl⟩
    rw [Bytes.ofString_eq]
    exact wellFormed_flatMap text.toList

end Utf8

end ChainState
