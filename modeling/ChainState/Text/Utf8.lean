import ChainState.Bytes

/-!
# Well-formed UTF-8

A first byte fixes the ranges of the bytes that have to follow it. The table
leaves out overlong forms, surrogates and code points past the last one.
-/

set_option autoImplicit false

namespace ChainState.Utf8

structure ByteRange where
  low : UInt8
  high : UInt8
  deriving DecidableEq, Repr

def ByteRange.contains (r : ByteRange) (b : UInt8) : Bool := r.low ≤ b && b ≤ r.high

def continuation : ByteRange := ⟨0x80, 0xBF⟩

/-- The ranges owed after a first byte, or `none` where no character starts. -/
def owed? (b : UInt8) : Option (List ByteRange) :=
  if b ≤ 0x7F then some []
  else if 0xC2 ≤ b ∧ b ≤ 0xDF then some [continuation]
  else if b = 0xE0 then some [⟨0xA0, 0xBF⟩, continuation]
  else if b = 0xED then some [⟨0x80, 0x9F⟩, continuation]
  else if 0xE1 ≤ b ∧ b ≤ 0xEF then some [continuation, continuation]
  else if b = 0xF0 then some [⟨0x90, 0xBF⟩, continuation, continuation]
  else if 0xF1 ≤ b ∧ b ≤ 0xF3 then some [continuation, continuation, continuation]
  else if b = 0xF4 then some [⟨0x80, 0x8F⟩, continuation, continuation]
  else none

def scan : List ByteRange → Bytes → Bool
  | [], [] => true
  | _::_, [] => false
  | [], b::rest =>
    match owed? b with
    | some ranges => scan ranges rest
    | none => false
  | r::ranges, b::rest => r.contains b && scan ranges rest

def wellFormed (bytes : Bytes) : Bool := scan [] bytes

theorem wellFormed_of_ascii (bytes : Bytes) (h : ∀ b ∈ bytes, b ≤ 0x7F) :
    wellFormed bytes = true := by
  unfold wellFormed
  induction bytes with
  | nil => rfl
  | cons b rest ih =>
    have hb : owed? b = some [] := by simp [owed?, h b (by simp)]
    rw [scan, hb]
    exact ih (fun c hc => h c (by simp [hc]))

end ChainState.Utf8
