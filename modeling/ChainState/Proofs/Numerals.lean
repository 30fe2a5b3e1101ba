import ChainState.Proofs.Decimals

/-!
# Which texts are numbers

A numeral is one digit or a numeral followed by a digit, so it may begin with
zeros; a signed one has at most one sign in front. The reader of numbers takes
these texts and no others.
-/

set_option autoImplicit false

namespace ChainState.Decimal

inductive Numeral : Bytes → Nat → Prop
  | single {d : Nat} (hd : d < 10) : Numeral [digit d] d
  | snoc {text : Bytes} {n d : Nat} (h : Numeral text n) (hd : d < 10) :
    Numeral (text ++ [digit d]) (10 * n + d)

inductive SignedNumeral : Bytes → Int → Prop
  | plain {text : Bytes} {n : Nat} (h : Numeral text n) : SignedNumeral text n
  | plus {text : Bytes} {n : Nat} (h : Numeral text n) : SignedNumeral (0x2B::text) n
  | minus {text : Bytes} {n : Nat} (h : Numeral text n) : SignedNumeral (0x2D::text) (-n)

theorem exists_digit {b : UInt8} (h : isDigit b = true) :
    ∃ d < 10, b = digit d ∧ b.toNat - 48 = d := by
  simp only [isDigit, Bool.and_eq_true, decide_eq_true_eq, UInt8.le_iff_toNat_le,
    UInt8.reduceToNat] at h
  refine ⟨b.toNat - 48, by omega, UInt8.toNat_inj.1 ?_, rfl⟩
  rw [toNat_digit]
  omega

theorem ne_of_isDigit {b mark : UInt8} (hb : isDigit b = true) (hmark : isDigit mark = false) :
    b ≠ mark := by
  rintro rfl
  rw [hb] at hmark
  cases hmark

theorem Numeral.isDigit_of_mem {text : Bytes} {n : Nat} (h : Numeral text n) :
    ∀ b ∈ text, isDigit b = true := by
  induction h with
  | single hd => simp [isDigit_digit]
  | snoc h hd ih =>
    intro b hb
    rcases List.mem_append.1 hb with hb | hb
    · exact ih b hb
    · rw [List.mem_singleton.1 hb]
      exact isDigit_digit _

theorem Numeral.exists_cons {text : Bytes} {n : Nat} (h : Numeral text n) :
    ∃ b rest, text = b::rest ∧ isDigit b = true := by
  cases text with
  | nil =>
    generalize hnil : ([] : Bytes) = text at h
    cases h <;> simp at hnil
  | cons b rest => exact ⟨b, rest, rfl, h.isDigit_of_mem b List.mem_cons_self⟩

theorem Numeral.value_eq {text : Bytes} {n : Nat} (h : Numeral text n) : value text = n := by
  induction h with
  | single hd =>
    rw [← List.nil_append [_], value_concat, toNat_digit]
    simp [value, Nat.mod_eq_of_lt hd]
  | snoc h hd ih => rw [value_concat, ih, toNat_digit, Nat.mod_eq_of_lt hd, Nat.add_sub_cancel]

theorem numeral_value {text : Bytes} (hne : text ≠ []) (h : ∀ b ∈ text, isDigit b = true) :
    Numeral text (value text) := by
  induction text using List.reverseRecOn with
  | nil => exact absurd rfl hne
  | append_singleton text b ih =>
    obtain ⟨d, hd, rfl, hvalue⟩ := exists_digit (h b (by simp))
    rw [value_concat, hvalue]
    cases text with
    | nil => simpa [value] using Numeral.single hd
    | cons c rest => exact (ih (by simp) fun b hb => h b (List.mem_append_left _ hb)).snoc hd

theorem toNat?_eq_some_iff {text : Bytes} {n : Nat} : toNat? text = some n ↔ Numeral text n := by
  constructor
  · intro h
    rw [toNat?] at h
    split at h
    · next hdigits =>
      obtain rfl := Option.some.inj h
      exact numeral_value hdigits.1 (List.all_eq_true.1 hdigits.2)
    · cases h
  · intro h
    obtain ⟨b, rest, rfl, -⟩ := h.exists_cons
    rw [toNat?, if_pos ⟨by simp, List.all_eq_true.2 h.isDigit_of_mem⟩, h.value_eq]

theorem toInt?_eq_some_iff {text : Bytes} {z : Int} :
    toInt? text = some z ↔ SignedNumeral text z := by
  constructor
  · intro h
    unfold toInt? at h
    split at h
    · obtain ⟨n, hn, rfl⟩ := Option.map_eq_some_iff.1 h
      exact .plus (toNat?_eq_some_iff.1 hn)
    · obtain ⟨n, hn, rfl⟩ := Option.map_eq_some_iff.1 h
      exact .minus (toNat?_eq_some_iff.1 hn)
    · obtain ⟨n, hn, rfl⟩ := Option.map_eq_some_iff.1 h
      exact .plain (toNat?_eq_some_iff.1 hn)
  · intro h
    cases h with
    | plain h =>
      rw [toInt?_of_digits h.isDigit_of_mem, toNat?_eq_some_iff.2 h]
      rfl
    | plus h =>
      rw [toInt?, toNat?_eq_some_iff.2 h]
      rfl
    | minus h =>
      rw [toInt?, toNat?_eq_some_iff.2 h]
      rfl

theorem toInt64?_eq_some_iff {text : Bytes} {w : Int64} :
    toInt64? text = some w ↔ SignedNumeral text w.toInt := by
  rw [toInt64?, Option.bind_eq_some_iff]
  constructor
  · rintro ⟨z, hz, hw⟩
    rw [Checked.toInt_ofInt? hw]
    exact toInt?_eq_some_iff.1 hz
  · intro h
    exact ⟨w.toInt, toInt?_eq_some_iff.2 h, Checked.ofInt?_toInt w⟩

theorem SignedNumeral.exists_cons {text : Bytes} {z : Int} (h : SignedNumeral text z) :
    ∃ b rest, text = b::rest ∧ (isDigit b = true ∨ b = 0x2B ∨ b = 0x2D) := by
  cases h with
  | plain h =>
    obtain ⟨b, rest, rfl, hb⟩ := h.exists_cons
    exact ⟨b, rest, rfl, .inl hb⟩
  | plus h => exact ⟨_, _, rfl, .inr (.inl rfl)⟩
  | minus h => exact ⟨_, _, rfl, .inr (.inr rfl)⟩

theorem SignedNumeral.exists_numeral {b : UInt8} {rest : Bytes} {z : Int}
    (h : SignedNumeral (b::rest) z) (hb : isDigit b = true) :
    ∃ n : Nat, z = n ∧ Numeral (b::rest) n := by
  cases h with
  | plain h => exact ⟨_, rfl, h⟩
  | plus h => exact absurd hb (by decide)
  | minus h => exact absurd hb (by decide)

theorem SignedNumeral.not_mem {text : Bytes} {z : Int} (h : SignedNumeral text z) {mark : UInt8}
    (hdigit : isDigit mark = false) (hplus : mark ≠ 0x2B) (hminus : mark ≠ 0x2D) :
    ∀ b ∈ text, b ≠ mark := by
  have hnot {digits : Bytes} {n : Nat} (hdigits : Numeral digits n) : ∀ b ∈ digits, b ≠ mark :=
    fun b hb => ne_of_isDigit (hdigits.isDigit_of_mem b hb) hdigit
  cases h with
  | plain h => exact hnot h
  | plus h => exact List.forall_mem_cons.2 ⟨hplus.symm, hnot h⟩
  | minus h => exact List.forall_mem_cons.2 ⟨hminus.symm, hnot h⟩

theorem numeral_ofNat (n : Nat) : Numeral (ofNat n) n := toNat?_eq_some_iff.1 (toNat?_ofNat n)

theorem signedNumeral_ofInt (z : Int) : SignedNumeral (ofInt z) z :=
  toInt?_eq_some_iff.1 (toInt?_ofInt z)

end ChainState.Decimal
