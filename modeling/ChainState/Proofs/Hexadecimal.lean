import ChainState.Http.Parameter
import ChainState.Proofs.Utf8

/-!
# Hexadecimal text is read back

Whatever bytes an answer shows in hexadecimal, a request may give back: the
text is read as the same bytes, and so as the same chain id, key or hash.
-/

set_option autoImplicit false

namespace ChainState

namespace Hex

theorem utf8_digit : ∀ n < 16,
    String.utf8EncodeChar (digit n) = [UInt8.ofNat (digit n).toNat] ∧
      digitValue? (UInt8.ofNat (digit n).toNat) = some n := by
  decide

theorem digits_cons (b : UInt8) (rest : Bytes) : ∃ high low,
    Bytes.ofString (encode (b::rest)) = high::low::Bytes.ofString (encode rest) ∧
      digitValue? high = some (b.toNat / 16) ∧ digitValue? low = some (b.toNat % 16) := by
  obtain ⟨hhigh, hread⟩ := utf8_digit (b.toNat / 16) (by have := b.toNat_lt; omega)
  obtain ⟨hlow, hread'⟩ := utf8_digit (b.toNat % 16) (by omega)
  refine ⟨_, _, ?_, hread, hread'⟩
  simp only [Bytes.ofString_eq, encode, encodeChars, String.toList_ofList, List.flatMap_cons, hhigh,
    hlow, List.singleton_append]

theorem length_encode (bytes : Bytes) :
    (Bytes.ofString (encode bytes)).length = 2 * bytes.length := by
  induction bytes with
  | nil => simp [encode, encodeChars, Bytes.ofString_eq]
  | cons b rest ih =>
    obtain ⟨high, low, hdigits, -⟩ := digits_cons b rest
    rw [hdigits, List.length_cons, List.length_cons, List.length_cons, ih]
    omega

theorem decodePairs_encode (bytes : Bytes) (position : Nat) :
    decodePairs position (Bytes.ofString (encode bytes)) = .ok bytes := by
  induction bytes generalizing position with
  | nil => simp [encode, encodeChars, Bytes.ofString_eq, decodePairs]
  | cons b rest ih =>
    obtain ⟨high, low, hdigits, hhigh, hlow⟩ := digits_cons b rest
    have hbyte : UInt8.ofNat (b.toNat / 16 * 16 + b.toNat % 16) = b := by
      rw [Nat.div_add_mod', UInt8.ofNat_toNat]
    rw [hdigits, decodePairs, digitAt, digitAt, hhigh, hlow, ih]
    exact congrArg (fun byte => Except.ok (byte::rest)) hbyte

/-- Bytes that are written are read back. -/
theorem decode_encode (bytes : Bytes) : decode (Bytes.ofString (encode bytes)) = .ok bytes := by
  rw [decode, length_encode, if_neg (by omega), decodePairs_encode]

end Hex

theorem FixedBytes.ofHex_hex {role : Role} (x : FixedBytes role) :
    ofHex (Bytes.ofString x.hex) = .ok x := by
  rw [ofHex, hex, Hex.decode?, Hex.decode_encode]
  exact dif_pos x.length_bytes

namespace Http.Parsed

theorem chain_encode {c : Bytes} (h : c ≠ []) : chain (Bytes.ofString (Hex.encode c)) = .ok c := by
  obtain ⟨b, rest, rfl⟩ := List.exists_cons_of_ne_nil h
  rw [chain, Hex.decode?, Hex.decode_encode]
  rfl

theorem fixed_hex {role : Role} (x : FixedBytes role) : fixed (Bytes.ofString x.hex) = .ok x := by
  rw [fixed, FixedBytes.ofHex_hex]

end Http.Parsed

end ChainState
