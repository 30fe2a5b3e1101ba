import ChainState.Proofs.Bencode.RoundTrip

/-!
# The bounds that a reader keeps to

A reader is handed what is left of the input and the room that is left. Here
the same reading is told of one input that is never cut: a scanner goes from
position to position, counts how many lists and dictionaries it is in, and
slices the input by two positions. A slice that the input does not have, a
position or a depth past its bound, a list left that was not entered, a call or
a turn of a loop more than were allowed for are faults. The scanner comes to
none of them, and goes where the reader goes.
-/

set_option autoImplicit false

namespace ChainState.Bencode

structure Stand where
  pos : Nat
  depth : Nat
  deriving DecidableEq, Repr

inductive Fault where
  | slice
  | position
  | depth
  | calls
  | turns
  deriving DecidableEq, Repr

inductive Halt where
  | refused (error : ReadError)
  | fault (fault : Fault)
  deriving DecidableEq, Repr

/-- A scanner takes a value from where it stands. -/
abbrev Scan (α : Type) := Stand → Except Halt (α × Stand)

section Scanner

variable (input : Bytes)

def slice (start stop : Nat) : Except Halt Bytes :=
  if start ≤ stop ∧ stop ≤ input.length then .ok ((input.take stop).drop start)
  else .error (.fault .slice)

def goTo (s : Stand) : Except Halt Stand :=
  if input.length < s.pos then .error (.fault .position)
  else if maxDepth < s.depth then .error (.fault .depth)
  else .ok s

def peek (s : Stand) : Except Halt UInt8 :=
  match input[s.pos]? with
  | none => .error (.refused (.unexpectedEnd s.pos))
  | some b => .ok b

def advance (s : Stand) : Except Halt Stand := goTo input ⟨s.pos + 1, s.depth⟩

def enter (s : Stand) : Except Halt Stand :=
  if maxDepth ≤ s.depth then .error (.refused (.tooDeep maxDepth s.pos))
  else goTo input ⟨s.pos, s.depth + 1⟩

def leave (s : Stand) : Except Halt Stand :=
  match s.depth with
  | 0 => .error (.fault .depth)
  | depth+1 => goTo input ⟨s.pos, depth⟩

def scanIntUntil (mark : UInt8) : Scan Int64 := fun s => do
  let tail ← slice input s.pos input.length
  match tail.findIdx? (· == mark) with
  | none => .error (.refused (.unexpectedEnd input.length))
  | some length => do
    let text ← slice input s.pos (s.pos + length)
    match Decimal.toInt64? text with
    | none => .error (.refused (.invalidInteger s.pos))
    | some n => do
      let next ← goTo input ⟨s.pos + length + 1, s.depth⟩
      return (n, next)

def scanBytes : Scan Bytes := fun s => do
  let (length, body) ← scanIntUntil input 0x3A s
  match length.toInt with
  | .negSucc _ => .error (.refused (.invalidLength s.pos))
  | .ofNat n =>
    let stop := body.pos + n
    if stop ≤ input.length then do
      let content ← slice input body.pos stop
      let next ← goTo input ⟨stop, body.depth⟩
      return (content, next)
    else .error (.refused (.unexpectedEnd input.length))

def scanUntilEnd {α : Type} (item : Scan α) : Nat → Scan (List α)
  | 0, _ => .error (.fault .turns)
  | turns+1, s => do
    let b ← peek input s
    if b = 0x65 then do
      let next ← advance input s
      return ([], next)
    else do
      let (x, s) ← item s
      let (xs, s) ← scanUntilEnd item turns s
      return (x::xs, s)

def scanField (value : Scan Bencode) : Scan (Label × Bencode) := fun s => do
  let (name, afterLabel) ← scanBytes input s
  match Label.ofBytes? name with
  | none => .error (.refused (.invalidLabel s.pos))
  | some label => do
    let (v, s) ← value afterLabel
    return ((label, v), s)

def scanNested {α : Type} (item : Scan α) : Scan (List α) := fun s => do
  let entered ← enter input s
  let first ← advance input entered
  let (xs, last) ← scanUntilEnd input item (input.length - first.pos + 1) first
  let left ← leave input last
  return (xs, left)

def scanValue : Nat → Scan Bencode
  | 0, _ => .error (.fault .calls)
  | calls+1, s => do
    let b ← peek input s
    if b = 0x69 then do
      let digits ← advance input s
      let (n, s) ← scanIntUntil input 0x65 digits
      return (.int n, s)
    else if b = 0x6C then do
      let (items, s) ← scanNested input (scanValue calls) s
      return (.list items, s)
    else if b = 0x64 then do
      let (fields, s) ← scanNested input (scanField input (scanValue calls)) s
      return (.record fields, s)
    else if Decimal.isDigit b then do
      let (content, s) ← scanBytes input s
      return (.bytes content, s)
    else .error (.refused (.unexpectedByte b s.pos))

end Scanner

/-- The position that an error names. -/
def ReadError.offset? : ReadError → Option Nat
  | .unexpectedEnd offset => some offset
  | .invalidInteger offset => some offset
  | .invalidLength offset => some offset
  | .unexpectedByte _ offset => some offset
  | .invalidLabel offset => some offset
  | .trailingBytes _ => none
  | .tooDeep _ offset => some offset

/-- What a reader is handed at a position of the input. -/
def Cursor.within (input : Bytes) (pos : Nat) : Cursor := ⟨pos, input.drop pos⟩

/-- The scanner comes to no fault and to what the reader comes to: to one value
and one position, within the input and not before `least`, or to one error that
names a position within the input. -/
inductive Tracks {α : Type} (input : Bytes) (least depth : Nat) :
    Except Halt (α × Stand) → Except ReadError (α × Cursor) → Prop
  | ok {pos : Nat} (x : α) (hleast : least ≤ pos) (hpos : pos ≤ input.length) :
    Tracks input least depth (.ok (x, ⟨pos, depth⟩)) (.ok (x, .within input pos))
  | refused (error : ReadError) {offset : Nat} (herror : error.offset? = some offset)
    (hoffset : offset ≤ input.length) :
    Tracks input least depth (.error (.refused error)) (.error error)

variable {input : Bytes} {pos depth : Nat}

theorem inputLength_within (h : pos ≤ input.length) :
    (Cursor.within input pos).inputLength = input.length := by
  simp only [Cursor.inputLength, Cursor.within, List.length_drop]
  omega

theorem slice_eq {start stop : Nat} (h : start ≤ stop) (hstop : stop ≤ input.length) :
    slice input start stop = .ok ((input.drop start).take (stop - start)) := by
  rw [slice, if_pos ⟨h, hstop⟩, List.drop_take]

theorem slice_tail (h : pos ≤ input.length) :
    slice input pos input.length = .ok (input.drop pos) := by
  rw [slice, if_pos ⟨h, Nat.le_refl _⟩, List.take_length]

theorem goTo_eq (hpos : pos ≤ input.length) (hdepth : depth ≤ maxDepth) :
    goTo input ⟨pos, depth⟩ = .ok ⟨pos, depth⟩ := by
  rw [goTo, if_neg (Nat.not_lt.2 hpos), if_neg (Nat.not_lt.2 hdepth)]

theorem advance_eq (hpos : pos < input.length) (hdepth : depth ≤ maxDepth) :
    advance input ⟨pos, depth⟩ = .ok ⟨pos + 1, depth⟩ :=
  goTo_eq hpos hdepth

theorem enter_eq (hpos : pos ≤ input.length) (hdepth : depth < maxDepth) :
    enter input ⟨pos, depth⟩ = .ok ⟨pos, depth + 1⟩ := by
  rw [enter, if_neg (Nat.not_le.2 hdepth)]
  exact goTo_eq hpos hdepth

theorem leave_eq (hpos : pos ≤ input.length) (hdepth : depth ≤ maxDepth) :
    leave input ⟨pos, depth + 1⟩ = .ok ⟨pos, depth⟩ :=
  goTo_eq hpos hdepth

theorem peek_nil (h : input.drop pos = []) :
    peek input ⟨pos, depth⟩ = .error (.refused (.unexpectedEnd pos)) := by
  rw [peek, List.getElem?_eq_none (List.drop_eq_nil_iff.1 h)]

theorem peek_cons {b : UInt8} {rest : Bytes} (h : input.drop pos = b::rest) :
    peek input ⟨pos, depth⟩ = .ok b := by
  have hb : input[pos]? = some b := by
    rw [← List.head?_drop, h, List.head?_cons]
  rw [peek, hb]

theorem lt_length_of_drop {b : UInt8} {rest : Bytes} (h : input.drop pos = b::rest) :
    pos < input.length := by
  by_contra hpos
  rw [List.drop_eq_nil_of_le (Nat.not_lt.1 hpos)] at h
  cases h

theorem drop_succ_of_drop {b : UInt8} {rest : Bytes} (h : input.drop pos = b::rest) :
    input.drop (pos + 1) = rest := by
  rw [← List.drop_drop, h, List.drop_one, List.tail_cons]

theorem Tracks.mono {α : Type} {least more : Nat} {scanned : Except Halt (α × Stand)}
    {read : Except ReadError (α × Cursor)} (h : Tracks input more depth scanned read)
    (hle : least ≤ more) : Tracks input least depth scanned read := by
  cases h with
  | ok x hleast hpos => exact .ok x (Nat.le_trans hle hleast) hpos
  | refused error herror hoffset => exact .refused error herror hoffset

theorem Tracks.bind {α β : Type} {least more inner outer : Nat}
    {scanned : Except Halt (α × Stand)} {read : Except ReadError (α × Cursor)}
    {scanMore : α × Stand → Except Halt (β × Stand)}
    {readMore : α × Cursor → Except ReadError (β × Cursor)}
    (h : Tracks input least inner scanned read)
    (hmore : ∀ x pos, least ≤ pos → pos ≤ input.length →
      Tracks input more outer (scanMore (x, ⟨pos, inner⟩)) (readMore (x, .within input pos))) :
    Tracks input more outer (scanned >>= scanMore) (read >>= readMore) := by
  cases h with
  | ok x hleast hpos => exact hmore x _ hleast hpos
  | refused error herror hoffset => exact .refused error herror hoffset

theorem Tracks.map {α β : Type} {least : Nat} {scanned : Except Halt (α × Stand)}
    {read : Except ReadError (α × Cursor)} (h : Tracks input least depth scanned read)
    (f : α → β) :
    Tracks input least depth (scanned >>= fun p => .ok (f p.1, p.2))
      (read >>= fun p => .ok (f p.1, p.2)) :=
  h.bind fun x _ hleast hpos => .ok (f x) hleast hpos

theorem Tracks.leave {α : Type} {least : Nat} {scanned : Except Halt (α × Stand)}
    {read : Except ReadError (α × Cursor)} (h : Tracks input least (depth + 1) scanned read)
    (hdepth : depth ≤ maxDepth) :
    Tracks input least depth
      (scanned >>= fun p => do
        let left ← leave input p.2
        return (p.1, left)) read := by
  cases h with
  | ok x hleast hpos =>
    simp only [Bind.bind, Except.bind, leave_eq hpos hdepth]
    exact .ok x hleast hpos
  | refused error herror hoffset => exact .refused error herror hoffset

theorem findIdx?_mark (mark : UInt8) (text : Bytes) :
    text.findIdx? (· == mark) = none ∧ text.dropWhile (· != mark) = [] ∨
      ∃ length, text.findIdx? (· == mark) = some length ∧ length < text.length ∧
        text.takeWhile (· != mark) = text.take length ∧
        text.dropWhile (· != mark) = mark :: text.drop (length + 1) := by
  induction text with
  | nil => exact .inl ⟨rfl, rfl⟩
  | cons b text ih =>
    by_cases hb : b = mark
    · subst hb
      exact .inr ⟨0, by simp [List.findIdx?_cons]⟩
    · obtain ⟨hnone, hdrop⟩ | ⟨length, hsome, hlt, htake, hdrop⟩ := ih
      · exact .inl (by simp [List.findIdx?_cons, hb, hnone, hdrop])
      · exact .inr ⟨length + 1, by simp [List.findIdx?_cons, hb, hsome, hlt, htake, hdrop]⟩

theorem tracks_intUntil (mark : UInt8) (hpos : pos ≤ input.length) (hdepth : depth ≤ maxDepth) :
    Tracks input (pos + 1) depth (scanIntUntil input mark ⟨pos, depth⟩)
      (readIntUntil mark (.within input pos)) := by
  have htail := slice_tail hpos
  simp only [scanIntUntil, readIntUntil, htail, bind, Except.bind]
  have hrest : (Cursor.within input pos).rest = input.drop pos := rfl
  rw [hrest]
  obtain ⟨hnone, hdrop⟩ | ⟨length, hsome, hlt, htake, hdrop⟩ := findIdx?_mark mark (input.drop pos)
  · rw [hnone, hdrop, inputLength_within hpos]
    exact .refused (.unexpectedEnd input.length) rfl (Nat.le_refl _)
  · rw [List.length_drop] at hlt
    have hstop : pos + length + 1 ≤ input.length := by omega
    have htext := slice_eq (Nat.le_add_right pos length) (Nat.le_of_succ_le hstop)
    have hnext := goTo_eq hstop hdepth
    rw [hsome, hdrop]
    simp only [htext, Nat.add_sub_cancel_left, htake]
    cases hn : Decimal.toInt64? ((input.drop pos).take length) with
    | none => exact .refused (.invalidInteger pos) rfl hpos
    | some n =>
      have hlength : ((input.drop pos).take length).length = length := by
        rw [List.length_take, List.length_drop]
        omega
      have hafter : (input.drop pos).drop (length + 1) = input.drop (pos + length + 1) := by
        rw [List.drop_drop, Nat.add_assoc]
      simp only [hnext, hlength, hafter]
      exact .ok n (by omega) hstop

theorem tracks_bytes (hpos : pos ≤ input.length) (hdepth : depth ≤ maxDepth) :
    Tracks input (pos + 1) depth (scanBytes input ⟨pos, depth⟩)
      (readBytes (.within input pos)) := by
  refine (tracks_intUntil 0x3A hpos hdepth).bind fun length body hleast hbody => ?_
  cases hn : length.toInt with
  | negSucc n =>
    simp only [hn]
    exact .refused (.invalidLength pos) rfl hpos
  | ofNat n =>
    have hcontent : ((input.drop body).take n).length = n ↔ body + n ≤ input.length := by
      rw [List.length_take, List.length_drop]
      omega
    simp only [hn, inputLength_within hbody]
    simp only [Cursor.within, hcontent]
    split
    · next hstop =>
      have hslice := slice_eq (Nat.le_add_right body n) hstop
      rw [hslice, Nat.add_sub_cancel_left, List.drop_drop]
      simp only [goTo_eq hstop hdepth, bind, Except.bind]
      exact .ok _ (by omega) hstop
    · exact .refused (.unexpectedEnd input.length) rfl (Nat.le_refl _)

theorem tracks_untilEnd {α : Type} {item : Scan α} {read : Reader α} (hdepth : depth ≤ maxDepth)
    (hitem : ∀ pos, pos ≤ input.length →
      Tracks input (pos + 1) depth (item ⟨pos, depth⟩) (read (.within input pos)))
    (turns : Nat) (hpos : pos ≤ input.length) (hturns : input.length - pos < turns) :
    Tracks input (pos + 1) depth (scanUntilEnd input item turns ⟨pos, depth⟩)
      (readUntilEnd read turns (.within input pos)) := by
  induction turns generalizing pos with
  | zero => exact absurd hturns (Nat.not_lt_zero _)
  | succ turns ih =>
    rw [scanUntilEnd, readUntilEnd]
    cases hrest : input.drop pos with
    | nil =>
      simp only [Cursor.within, hrest, peek_nil hrest]
      exact .refused (.unexpectedEnd pos) rfl hpos
    | cons b rest =>
      have hlt := lt_length_of_drop hrest
      simp only [Cursor.within, hrest, peek_cons hrest, bind, Except.bind]
      split
      · rw [advance_eq hlt hdepth, ← drop_succ_of_drop hrest]
        exact .ok [] (Nat.le_refl _) hlt
      · -- the item takes one byte at least, so one turn less is enough for what is left
        rw [← hrest]
        refine (hitem pos hpos).bind fun x next hnext hle => ?_
        refine Tracks.mono ?_ (Nat.le_succ_of_le hnext)
        exact (ih hle (by omega)).map (x::·)

theorem tracks_nested {α : Type} {item : Scan α} {read : Reader α} {b : UInt8} {rest : Bytes}
    (hdepth : depth < maxDepth) (hrest : input.drop pos = b::rest)
    (hitem : ∀ pos, pos ≤ input.length →
      Tracks input (pos + 1) (depth + 1) (item ⟨pos, depth + 1⟩) (read (.within input pos))) :
    Tracks input (pos + 1) depth (scanNested input item ⟨pos, depth⟩)
      (readUntilEnd read (rest.length + 1) ⟨pos + 1, rest⟩) := by
  have hlt := lt_length_of_drop hrest
  have hturns : input.length - (pos + 1) = rest.length := by
    rw [← drop_succ_of_drop hrest, List.length_drop]
  have hloop := tracks_untilEnd hdepth hitem (rest.length + 1) hlt (by omega)
  rw [Cursor.within, drop_succ_of_drop hrest] at hloop
  simp only [scanNested, enter_eq (Nat.le_of_lt hlt) hdepth, advance_eq hlt hdepth, hturns, bind,
    Except.bind]
  exact (hloop.mono (Nat.le_succ _)).leave (Nat.le_of_lt hdepth)

theorem scanNested_full {α : Type} (item : Scan α) :
    scanNested input item ⟨pos, maxDepth⟩ = .error (.refused (.tooDeep maxDepth pos)) := by
  rw [scanNested, enter, if_pos (Nat.le_refl _)]
  rfl

theorem tracks_opened {α : Type} {item : Scan α} (read : Nat → Reader α) {b : UInt8}
    {rest : Bytes} (hdepth : depth ≤ maxDepth) (hrest : input.drop pos = b::rest)
    (hitem : depth < maxDepth → ∀ pos, pos ≤ input.length →
      Tracks input (pos + 1) (depth + 1) (item ⟨pos, depth + 1⟩)
        (read (maxDepth - (depth + 1)) (.within input pos))) (value : List α → Bencode) :
    Tracks input (pos + 1) depth
      (scanNested input item ⟨pos, depth⟩ >>= fun p => .ok (value p.1, p.2))
      (match maxDepth - depth with
        | 0 => .error (.tooDeep maxDepth pos)
        | room+1 => readUntilEnd (read room) (rest.length + 1) ⟨pos + 1, rest⟩ >>=
            fun p => .ok (value p.1, p.2)) := by
  obtain rfl | hlt := Nat.eq_or_lt_of_le hdepth
  · rw [scanNested_full, Nat.sub_self]
    exact .refused (.tooDeep maxDepth pos) rfl (Nat.le_of_lt (lt_length_of_drop hrest))
  · have hroom : maxDepth - depth = maxDepth - (depth + 1) + 1 := by omega
    rw [hroom]
    exact (tracks_nested hlt hrest (hitem hlt)).map value

theorem tracks_field {value : Scan Bencode} {read : Reader Bencode} (hdepth : depth ≤ maxDepth)
    (hvalue : ∀ pos, pos ≤ input.length →
      Tracks input (pos + 1) depth (value ⟨pos, depth⟩) (read (.within input pos)))
    (hpos : pos ≤ input.length) :
    Tracks input (pos + 1) depth (scanField input value ⟨pos, depth⟩)
      (readField read (.within input pos)) := by
  refine (tracks_bytes hpos hdepth).bind fun name body hleast hbody => ?_
  cases hlabel : Label.ofBytes? name with
  | none =>
    simp only [hlabel]
    exact .refused (.invalidLabel pos) rfl hpos
  | some label =>
    simp only [hlabel]
    refine (hvalue body hbody).bind fun v next hnext hle => ?_
    exact .ok (label, v) (by omega) hle

/-- The scanner stands `depth` deep, and the reader has the room that is left
from there. Each call within another leaves one level less of it. -/
theorem tracks_value (calls : Nat) (hpos : pos ≤ input.length) (hdepth : depth ≤ maxDepth)
    (hcalls : maxDepth - depth < calls) :
    Tracks input (pos + 1) depth (scanValue input calls ⟨pos, depth⟩)
      (readValue (maxDepth - depth) (.within input pos)) := by
  induction calls generalizing pos depth with
  | zero => exact absurd hcalls (Nat.not_lt_zero _)
  | succ calls ih =>
    rw [scanValue]
    cases hrest : input.drop pos with
    | nil =>
      rw [peek_nil hrest, readValue_nil (c := .within input pos) hrest]
      exact .refused (.unexpectedEnd pos) rfl hpos
    | cons b rest =>
      have hlt := lt_length_of_drop hrest
      have hhead : (Cursor.within input pos).rest = b::rest := hrest
      rw [readValue.eq_def, peek_cons hrest]
      simp only [hhead, bind, Except.bind]
      -- both choose by the first byte
      split_ifs with hint hlist hdict hdigit
      · rw [advance_eq hlt hdepth, ← drop_succ_of_drop hrest]
        exact ((tracks_intUntil 0x65 hlt hdepth).mono (Nat.le_succ _)).map Bencode.int
      · refine tracks_opened readValue hdepth hrest (fun hlt pos hpos => ?_) Bencode.list
        exact ih hpos hlt (by omega)
      · refine tracks_opened (fun room => readField (readValue room)) hdepth hrest
          (fun hlt pos hpos => ?_) Bencode.record
        exact tracks_field hlt (fun pos hpos => ih hpos hlt (by omega)) hpos
      · exact (tracks_bytes hpos hdepth).map Bencode.bytes
      · exact .refused (.unexpectedByte b pos) rfl hpos

/-- From any position and any depth within bounds, a scanner that may make as
many calls within each other as there are levels left, and one more, comes to
no fault and to what the reader comes to. Either it is past at least one byte of
the input, at most at its end, and as deep as before; or the error it refuses
with names an offset within the input. -/
theorem scan_keeps_bounds (input : Bytes) (s : Stand) (calls : Nat)
    (hpos : s.pos ≤ input.length) (hdepth : s.depth ≤ 64) (hcalls : 64 - s.depth < calls) :
    (∃ v next, scanValue input calls s = .ok (v, next) ∧
        readValue (64 - s.depth) ⟨s.pos, input.drop s.pos⟩ =
          .ok (v, ⟨next.pos, input.drop next.pos⟩) ∧
        s.pos < next.pos ∧ next.pos ≤ input.length ∧ next.depth = s.depth) ∨
      ∃ error offset, scanValue input calls s = .error (.refused error) ∧
        readValue (64 - s.depth) ⟨s.pos, input.drop s.pos⟩ = .error error ∧
        error.offset? = some offset ∧ offset ≤ input.length := by
  have htracks : Tracks input (s.pos + 1) s.depth (scanValue input calls s)
      (readValue (64 - s.depth) ⟨s.pos, input.drop s.pos⟩) := tracks_value calls hpos hdepth hcalls
  generalize scanValue input calls s = scanned at htracks ⊢
  generalize readValue (64 - s.depth) ⟨s.pos, input.drop s.pos⟩ = read at htracks ⊢
  cases htracks with
  | ok v hlt hle => exact .inl ⟨v, _, rfl, rfl, hlt, hle, rfl⟩
  | refused error herror hoffset => exact .inr ⟨error, _, rfl, rfl, herror, hoffset⟩

def listed : Bytes := [0x6C, 0x6C, 0x69, 0x31, 0x65, 0x65, 0x65]

theorem scanValue_listed :
    scanValue listed 2 ⟨1, 63⟩ = .ok (.list [.int 1], ⟨6, 63⟩) ∧
      scanValue listed 1 ⟨1, 64⟩ = .error (.refused (.tooDeep 64 1)) :=
  ⟨rfl, rfl⟩

/-- The inner list is read at the last level, and refused one level below it. -/
theorem scan_keeps_bounds_listed :
    1 ≤ listed.length ∧ 63 ≤ 64 ∧ 64 - 63 < 2 ∧ 64 - 64 < 1 ∧
      readValue 1 ⟨1, listed.drop 1⟩ = .ok (.list [.int 1], ⟨6, [0x65]⟩) ∧
      readValue 0 ⟨1, listed.drop 1⟩ = .error (.tooDeep 64 1) := by
  refine ⟨by decide, by decide, by decide, by decide, ?_, ?_⟩
  · obtain ⟨v, next, hscan, hread, -⟩ | ⟨error, offset, hscan, -⟩ :=
      scan_keeps_bounds listed ⟨1, 63⟩ 2 (by decide) (by decide) (by decide)
    · rw [scanValue_listed.1] at hscan
      obtain ⟨rfl, rfl⟩ := Prod.mk.inj (Except.ok.inj hscan)
      exact hread
    · rw [scanValue_listed.1] at hscan
      cases hscan
  · obtain ⟨v, next, hscan, -⟩ | ⟨error, offset, hscan, hread, -⟩ :=
      scan_keeps_bounds listed ⟨1, 64⟩ 1 (by decide) (by decide) (by decide)
    · rw [scanValue_listed.2] at hscan
      cases hscan
    · rw [scanValue_listed.2] at hscan
      obtain rfl := Halt.refused.inj (Except.error.inj hscan)
      exact hread

/-- A call less is a fault, and past the end of the input so is the offset. -/
example : scanValue listed 1 ⟨1, 63⟩ = .error (.fault .calls) ∧
    scanValue listed 1 ⟨8, 64⟩ = .error (.refused (.unexpectedEnd 8)) := ⟨rfl, rfl⟩

end ChainState.Bencode
