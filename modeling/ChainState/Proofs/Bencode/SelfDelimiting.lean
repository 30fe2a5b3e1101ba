import ChainState.Proofs.Bencode.RoundTrip

/-!
# Where a value ends

The canonical form of a value tells where it ends: numbers end at their mark,
byte strings carry their length, and lists and dictionaries end where no
further item can begin. So no canonical form begins another, whatever follows
either of them, and at any depth of nesting.
-/

set_option autoImplicit false

namespace ChainState.Bencode

/-- No other text stands at the front of an input that begins with that of `x`. -/
def Marks {α : Type} (text : α → Bytes) (x : α) : Prop :=
  ∀ (y : α) (s t : Bytes), text x ++ s = text y ++ t → x = y ∧ s = t

theorem eq_of_append_mark {mark : UInt8} {a b s t : Bytes} (ha : ∀ c ∈ a, c ≠ mark)
    (hb : ∀ c ∈ b, c ≠ mark) (h : a ++ mark::s = b ++ mark::t) : a = b ∧ s = t := by
  have htake (text rest : Bytes) (htext : ∀ c ∈ text, c ≠ mark) :
      (text ++ mark::rest).takeWhile (· != mark) = text := by
    have hne : ∀ c ∈ text, (c != mark) = true := fun c hc => bne_iff_ne.2 (htext c hc)
    simp [List.takeWhile_append_of_pos hne]
  obtain rfl : a = b := by rw [← htake a s ha, h, htake b t hb]
  exact ⟨rfl, (List.cons.inj (List.append_cancel_left h)).2⟩

theorem marks_renderBytes (content : Bytes) : Marks renderBytes content := by
  have hcolon (n : Nat) : ∀ c ∈ Decimal.ofNat n, c ≠ 0x3A :=
    (Decimal.SignedNumeral.plain (Decimal.numeral_ofNat n)).not_mem (by decide) (by decide)
      (by decide)
  intro other s t h
  simp only [renderBytes, List.append_assoc, List.cons_append] at h
  obtain ⟨hlength, hrest⟩ := eq_of_append_mark (hcolon _) (hcolon _) h
  have hsame : content.length = other.length := by
    rw [← Decimal.value_ofNat content.length, hlength, Decimal.value_ofNat]
  exact List.append_inj hrest hsame

theorem marks_untilEnd {α : Type} {text : α → Bytes} (hopen : ∀ x, Opens (text x)) {xs : List α}
    (h : ∀ x ∈ xs, Marks text x) : Marks (fun ys => ys.flatMap text ++ [0x65]) xs := by
  -- a list that has ended cannot go on with a further item
  have hended (y : α) (rest s : Bytes) : text y ++ rest ≠ 0x65::s := by
    obtain ⟨b, tail, htext, hb⟩ := hopen y
    rw [htext, List.cons_append]
    exact fun e => hb (List.cons.inj e).1
  induction xs with
  | nil =>
    intro ys s t heq
    cases ys with
    | nil => exact ⟨rfl, (List.cons.inj heq).2⟩
    | cons y ys =>
      simp only [List.flatMap_cons, List.append_assoc] at heq
      exact absurd heq.symm (hended y _ _)
  | cons x xs ih =>
    intro ys s t heq
    cases ys with
    | nil =>
      simp only [List.flatMap_cons, List.append_assoc] at heq
      exact absurd heq (hended x _ _)
    | cons y ys =>
      simp only [List.flatMap_cons, List.append_assoc] at heq
      obtain ⟨rfl, hrest⟩ := h x (by simp) y _ _ heq
      obtain ⟨rfl, rfl⟩ := ih (fun z hz => h z (by simp [hz])) ys s t
        (by simpa only [List.append_assoc] using hrest)
      exact ⟨rfl, rfl⟩

theorem marks_field {field : Label × Bencode} (h : Marks render field.2) :
    Marks renderField field := by
  intro other s t heq
  simp only [renderField, List.append_assoc] at heq
  obtain ⟨hlabel, hvalue⟩ := marks_renderBytes _ _ _ _ heq
  obtain ⟨hv, hrest⟩ := h _ _ _ hvalue
  exact ⟨Prod.ext (Label.ext hlabel) hv, hrest⟩

@[elab_as_elim]
theorem induction {motive : Bencode → Prop} (int : ∀ value, motive (.int value))
    (bytes : ∀ content, motive (.bytes content))
    (list : ∀ items : List Bencode, (∀ v ∈ items, motive v) → motive (.list items))
    (dict : ∀ fields : List (Label × Bencode), (∀ f ∈ fields, motive f.2) → motive (.dict fields))
    (v : Bencode) : motive v :=
  @Bencode.rec motive (fun items => ∀ v ∈ items, motive v)
    (fun fields => ∀ f ∈ fields, motive f.2) (fun f => motive f.2) int bytes list dict
    (by simp) (fun _ _ hv hvs => List.forall_mem_cons.2 ⟨hv, hvs⟩)
    (by simp) (fun _ _ hf hfs => List.forall_mem_cons.2 ⟨hf, hfs⟩) (fun _ _ hv => hv) v

theorem renderBytes_append_ne {b : UInt8} (hb : Decimal.isDigit b = false) (content s t : Bytes) :
    renderBytes content ++ s ≠ b::t := by
  intro h
  cases hdigits : Decimal.ofNat content.length with
  | nil => exact absurd hdigits (Decimal.ofNat_ne_nil _)
  | cons d digits =>
    simp only [renderBytes, hdigits, List.cons_append, List.cons.injEq] at h
    have hdigit := Decimal.isDigit_of_mem_ofNat content.length d (by simp [hdigits])
    exact Decimal.ne_of_isDigit hdigit hb h.1

theorem marks_int (value : Int64) : Marks render (.int value) := by
  have hend (w : Int64) : ∀ c ∈ Decimal.ofInt w.toInt, c ≠ 0x65 :=
    (Decimal.signedNumeral_ofInt _).not_mem (by decide) (by decide) (by decide)
  intro w s t h
  cases w with
  | int other =>
    simp only [render, List.cons_append, List.append_assoc, List.cons.injEq, true_and,
      List.nil_append] at h
    obtain ⟨hdigits, hrest⟩ := eq_of_append_mark (hend _) (hend _) h
    have hsame : some value = some other := by
      rw [← Decimal.toInt64?_ofInt, hdigits, Decimal.toInt64?_ofInt]
    exact ⟨congrArg Bencode.int (Option.some.inj hsame), hrest⟩
  | bytes content => exact absurd h.symm (renderBytes_append_ne (by decide) _ _ _)
  | list items => simp [render] at h
  | dict fields => simp [render] at h

theorem marks_bytes (content : Bytes) : Marks render (.bytes content) := by
  intro w s t h
  cases w with
  | bytes other =>
    obtain ⟨rfl, hrest⟩ := marks_renderBytes _ _ _ _ h
    exact ⟨rfl, hrest⟩
  | int value => exact absurd h (renderBytes_append_ne (by decide) _ _ _)
  | list items => exact absurd h (renderBytes_append_ne (by decide) _ _ _)
  | dict fields => exact absurd h (renderBytes_append_ne (by decide) _ _ _)

theorem marks_list {items : List Bencode} (h : ∀ v ∈ items, Marks render v) :
    Marks render (.list items) := by
  intro w s t heq
  cases w with
  | list others =>
    simp only [render, renderItems_eq, List.cons_append, List.cons.injEq, true_and] at heq
    obtain ⟨rfl, hrest⟩ := marks_untilEnd opens_render h _ _ _ heq
    exact ⟨rfl, hrest⟩
  | bytes content => exact absurd heq.symm (renderBytes_append_ne (by decide) _ _ _)
  | int value => simp [render] at heq
  | dict fields => simp [render] at heq

theorem marks_dict {fields : List (Label × Bencode)} (h : ∀ f ∈ fields, Marks render f.2) :
    Marks render (.dict fields) := by
  intro w s t heq
  cases w with
  | dict others =>
    simp only [render, renderFields_eq, List.cons_append, List.cons.injEq, true_and] at heq
    obtain ⟨rfl, hrest⟩ :=
      marks_untilEnd opens_renderField (fun f hf => marks_field (h f hf)) _ _ _ heq
    exact ⟨rfl, hrest⟩
  | bytes content => exact absurd heq.symm (renderBytes_append_ne (by decide) _ _ _)
  | int value => simp [render] at heq
  | list items => simp [render] at heq

theorem marks_render (v : Bencode) : Marks render v := by
  induction v using Bencode.induction with
  | int value => exact marks_int value
  | bytes content => exact marks_bytes content
  | list items ih => exact marks_list ih
  | dict fields ih => exact marks_dict ih

theorem render_injective : Function.Injective render := by
  intro v w h
  exact (marks_render v w [] [] (by rw [h])).1

/-- Two inputs that begin with canonical forms are equal only if the values and
all that follows them are; so no value shares its canonical form with another,
and no canonical form stands at the front of another. -/
theorem render_self_delimiting (v w : Bencode) :
    (∀ s t : Bytes, v.render ++ s = w.render ++ t ↔ v = w ∧ s = t) ∧
      (v.render = w.render ↔ v = w) ∧ (v.render <+: w.render ↔ v = w) := by
  refine ⟨fun s t => ⟨marks_render v w s t, ?_⟩, render_injective.eq_iff, ?_, ?_⟩
  · rintro ⟨rfl, rfl⟩
    rfl
  · rintro ⟨s, hs⟩
    exact (marks_render v w s [] (by rw [hs, List.append_nil])).1
  · rintro rfl
    exact List.prefix_rfl

end ChainState.Bencode
