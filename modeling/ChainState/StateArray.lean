import ChainState.Account
import ChainState.Crypto

/-!
# Snapshots of accounts

A list of accounts, named by the hash of its encoding.
-/

set_option autoImplicit false

namespace ChainState

structure StateArray.Content where
  accounts : List Account
  deriving DecidableEq, Repr

namespace StateArray.Content

def toBencode (s : Content) : Bencode := .list (s.accounts.map Account.toBencode)

def encode (s : Content) : Bytes := s.toBencode.render

end StateArray.Content

section

variable [Crypto]

/-- A snapshot carries the hash of its encoding. -/
structure StateArray extends StateArray.Content where
  hash : Hash := Crypto.digest toContent.encode
  hash_eq : hash = Crypto.digest toContent.encode := by rfl

namespace StateArray

@[ext] theorem ext {s t : StateArray} (h : s.toContent = t.toContent) : s = t := by
  obtain ⟨content, hash, rfl⟩ := s
  obtain ⟨content', hash', rfl⟩ := t
  cases h
  rfl

instance : DecidableEq StateArray := fun s t =>
  decidable_of_iff (s.toContent = t.toContent) ⟨ext, congrArg toContent⟩

/-- Anything but a list reads as the empty snapshot. -/
def ofBencode (v : Bencode) : StateArray where
  accounts := (v.list?.getD []).map Account.ofBencode

def decode (bytes : Bytes) : Except Bencode.ReadError StateArray :=
  (Bencode.decode bytes).map ofBencode

def describe (s : StateArray) : String :=
  "state array " ++ s.hash.hex ++ " (" ++ toString s.accounts.length ++ " accounts)"

end StateArray

end

end ChainState
