import ChainState.Proofs.Bencode.RoundTrip

/-!
# How deep a value may nest

The reader takes what is written as long as lists and dictionaries nest no
deeper than its limit. A value that nests deeper is refused for its depth, at
the first place where the room is used up, and all that stands before this
place is read as usual.
-/

set_option autoImplicit false

namespace ChainState.Bencode

/-- The reader refuses any input that begins with `text` as nested too deep. -/
def Overruns {α : Type} (read : Reader α) (text : Bytes) : Prop :=
  ∀ (c : Cursor) (rest : Bytes), c.rest = text ++ rest →
    ∃ offset, read c = .error (.tooDeep maxDepth offset)

theorem exists_first_deeper {α : Type} (size : α → Nat) {n : Nat} {xs : List α}
    (h : ¬ ∀ x ∈ xs, size x ≤ n) :
    ∃ before x after, xs = before ++ x::after ∧ (∀ y ∈ before, size y ≤ n) ∧ n < size x := by
  have hfind : (xs.find? (n < size ·)).isSome = true := by
    rw [List.find?_isSome]
    by_contra hnone
    exact h fun x hx => Nat.not_lt.1 fun hlt => hnone ⟨x, hx, by simpa using hlt⟩
  obtain ⟨x, hx⟩ := Option.isSome_iff_exists.1 hfind
  obtain ⟨hdeep, before, after, rfl, hbefore⟩ := List.find?_eq_some_iff_append.1 hx
  exact ⟨before, x, after, rfl, fun y hy => by simpa using hbefore y hy, by simpa using hdeep⟩

theorem overruns_untilEnd {α : Type} {item : Reader α} {text : α → Bytes}
    (hopen : ∀ x, Opens (text x)) {before : List α} {x : α}
    (hbefore : ∀ y ∈ before, Reads item (text y) y) (hx : Overruns item (text x))
    {limit : Nat} (hlimit : before.length < limit) :
    Overruns (readUntilEnd item limit) (before.flatMap text ++ text x) := by
  intro c rest hc
  obtain ⟨more, rfl⟩ : ∃ n, limit = before.length + (n + 1) :=
    ⟨limit - before.length - 1, by omega⟩
  obtain ⟨b, tail, htext, hb⟩ := hopen x
  let next : Cursor := ⟨c.offset + (before.flatMap text).length, text x ++ rest⟩
  obtain ⟨offset, hitem⟩ := hx next rest rfl
  refine ⟨offset, ?_⟩
  have hhead : next.rest = b::(tail ++ rest) := by simp [next, htext]
  have hnext : readUntilEnd item (more + 1) next = .error (.tooDeep maxDepth offset) := by
    rw [readUntilEnd, hhead]
    simp only [hb, if_false, hitem, bind, Except.bind]
  rw [readUntilEnd_append hopen hbefore (more + 1) (hc.trans (List.append_assoc _ _ _)), hnext]
  rfl

theorem overruns_field {read : Reader Bencode} {field : Label × Bencode}
    (hlabel : field.1.bytes.length < sizeLimit) (h : Overruns read field.2.render) :
    Overruns (readField read) (renderField field) := by
  intro c rest hc
  let next : Cursor := ⟨c.offset + (renderBytes field.1.bytes).length, field.2.render ++ rest⟩
  have hname : readBytes c = .ok (field.1.bytes, next) :=
    reads_bytes hlabel c _ (by simp [hc, renderField])
  have hlabel? : Label.ofBytes? field.1.bytes = some field.1 := by
    rw [Label.ofBytes?, dif_pos field.1.wellFormed]
  obtain ⟨offset, hvalue⟩ := h next rest rfl
  refine ⟨offset, ?_⟩
  simp only [readField, hname, hlabel?, hvalue, bind, Except.bind]

theorem overruns_list {items : List Bencode} {room : Nat} {before : List Bencode} {v : Bencode}
    {after : List Bencode} (hitems : items = before ++ v::after)
    (hbefore : ∀ w ∈ before, Reads (readValue room) w.render w)
    (hv : Overruns (readValue room) v.render) :
    Overruns (readValue (room + 1)) (Bencode.list items).render := by
  intro c rest hc
  let inner : Cursor :=
    ⟨c.offset + 1, before.flatMap render ++ v.render ++ (after.flatMap render ++ 0x65::rest)⟩
  have hhead : c.rest = 0x6C::inner.rest := by simp [hc, render, renderItems_eq, hitems, inner]
  have hlimit : before.length < inner.rest.length + 1 := by
    have := length_le_flatMap opens_render before
    simp only [inner, List.length_append]
    omega
  obtain ⟨offset, hread⟩ :=
    overruns_untilEnd opens_render hbefore hv hlimit inner _ rfl
  refine ⟨offset, ?_⟩
  rw [readValue_list hhead, hread]
  rfl

theorem overruns_dict {fields : List (Label × Bencode)} {room : Nat}
    {before : List (Label × Bencode)} {f : Label × Bencode} {after : List (Label × Bencode)}
    (hfields : fields = before ++ f::after)
    (hbefore : ∀ g ∈ before, Reads (readField (readValue room)) (renderField g) g)
    (hf : Overruns (readField (readValue room)) (renderField f)) :
    Overruns (readValue (room + 1)) (Bencode.dict fields).render := by
  intro c rest hc
  let inner : Cursor := ⟨c.offset + 1,
    before.flatMap renderField ++ renderField f ++ (after.flatMap renderField ++ 0x65::rest)⟩
  have hhead : c.rest = 0x64::inner.rest := by simp [hc, render, renderFields_eq, hfields, inner]
  have hlimit : before.length < inner.rest.length + 1 := by
    have := length_le_flatMap opens_renderField before
    simp only [inner, List.length_append]
    omega
  obtain ⟨offset, hread⟩ :=
    overruns_untilEnd opens_renderField hbefore hf hlimit inner _ rfl
  refine ⟨offset, ?_⟩
  rw [readValue_dict hhead, hread]
  rfl

theorem overruns_value (room : Nat) (v : Bencode) (hordered : v.Ordered) (hsized : v.Sized)
    (hdepth : room < v.depth) : Overruns (readValue room) v.render := by
  induction room generalizing v with
  | zero =>
    intro c rest hc
    refine ⟨c.offset, ?_⟩
    rw [readValue.eq_def]
    cases v with
    | int value => simp [depth] at hdepth
    | bytes content => simp [depth] at hdepth
    | list items => simp [hc, render]
    | dict fields => simp [hc, render]
  | succ room ih =>
    cases v with
    | int value => simp [depth] at hdepth
    | bytes content => simp [depth] at hdepth
    | list items =>
      rw [depth, Nat.add_lt_add_iff_right, ← Nat.not_le, depthItems_le_iff] at hdepth
      rw [Ordered, orderedItems_iff] at hordered
      rw [Sized, sizedItems_iff] at hsized
      obtain ⟨before, w, after, rfl, hbefore, hw⟩ := exists_first_deeper depth hdepth
      have hmem : w ∈ before ++ w::after := by simp
      refine overruns_list rfl (fun u hu => ?_) (ih w (hordered w hmem) (hsized w hmem) hw)
      have hu' : u ∈ before ++ w::after := List.mem_append_left _ hu
      exact reads_value room u (hordered u hu') (hsized u hu') (hbefore u hu)
    | dict fields =>
      rw [depth, Nat.add_lt_add_iff_right, ← Nat.not_le, depthFields_le_iff] at hdepth
      obtain ⟨-, hordered⟩ := hordered
      rw [orderedFields_iff] at hordered
      rw [Sized, sizedFields_iff] at hsized
      obtain ⟨before, f, after, rfl, hbefore, hf⟩ :=
        exists_first_deeper (fun f : Label × Bencode => f.2.depth) hdepth
      have hmem : f ∈ before ++ f::after := by simp
      have hvalue := ih f.2 (hordered f hmem) (hsized f hmem).2 hf
      refine overruns_dict rfl (fun g hg => ?_) (overruns_field (hsized f hmem).1 hvalue)
      have hg' : g ∈ before ++ f::after := List.mem_append_left _ hg
      exact reads_field (hsized g hg').1
        (reads_value room g.2 (hordered g hg') (hsized g hg').2 (hbefore g hg))

/-- A value is read back from its canonical form if it nests at most 64 deep,
and refused for its depth if it nests deeper. -/
theorem decode_render_by_depth {v : Bencode} (hordered : v.Ordered) (hsized : v.Sized) :
    (v.depth ≤ 64 → decode v.render = .ok v) ∧
      (64 < v.depth → ∃ offset, decode v.render = .error (.tooDeep 64 offset)) := by
  refine ⟨fun hdepth => decode_render hordered hsized hdepth, fun hdepth => ?_⟩
  obtain ⟨offset, hread⟩ :=
    overruns_value maxDepth v hordered hsized hdepth ⟨0, v.render⟩ [] (by simp)
  refine ⟨offset, ?_⟩
  simp only [decode, hread, bind, Except.bind]
  rfl

def nest : Nat → Bencode
  | 0 => .dict [(.ascii ['a'], .bytes [0x78]), (.ascii ['b'], .int (-2))]
  | n+1 => .list [.int 7, nest n]

theorem ordered_nest (n : Nat) : (nest n).Ordered := by
  induction n with
  | zero =>
    refine ⟨?_, trivial, trivial, trivial⟩
    simp only [Ascending.Sorted, List.pairwise_cons, List.mem_singleton, forall_eq]
    decide
  | succ n ih => exact ⟨trivial, ih, trivial⟩

theorem sized_nest (n : Nat) : (nest n).Sized := by
  induction n with
  | zero => simp [nest, Sized, SizedFields, sizeLimit, Label.ascii]
  | succ n ih => exact ⟨trivial, ih, trivial⟩

theorem depth_nest (n : Nat) : (nest n).depth = n + 1 := by
  induction n with
  | zero => rfl
  | succ n ih => simp [nest, depth, depthItems, ih]

/-- One list more, and the value is refused. -/
theorem decode_render_nest :
    (nest 63).Ordered ∧ (nest 63).Sized ∧ (nest 63).depth ≤ 64 ∧
      decode (nest 63).render = .ok (nest 63) ∧
    (nest 64).Ordered ∧ (nest 64).Sized ∧ 64 < (nest 64).depth ∧
      ∃ offset, decode (nest 64).render = .error (.tooDeep 64 offset) := by
  have hfits : (nest 63).depth ≤ 64 := by rw [depth_nest]
  have hdeep : 64 < (nest 64).depth := by rw [depth_nest]; decide
  have hread := (decode_render_by_depth (ordered_nest 63) (sized_nest 63)).1 hfits
  have hrefused := (decode_render_by_depth (ordered_nest 64) (sized_nest 64)).2 hdeep
  exact ⟨ordered_nest 63, sized_nest 63, hfits, hread, ordered_nest 64, sized_nest 64, hdeep,
    hrefused⟩

end ChainState.Bencode
