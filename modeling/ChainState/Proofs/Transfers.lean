import ChainState.Proofs.NodeHistory

/-!
# Transfers along a best chain

A block joins a best chain only if its transfer moves no negative value, has
the nonce of its sender, and is covered by what the sender holds at that
point. So every transfer of a best chain was covered where it stands.
-/

set_option autoImplicit false

namespace ChainState

structure Tally.Covers (m : Tally) (t : Transaction) : Prop where
  amount : 0 ≤ t.amount.toInt
  fee : 0 ≤ t.fee.toInt
  nonce : t.nonce.toInt = (m t.sender).nonce
  balance : t.amount.toInt + t.fee.toInt ≤ (m t.sender).balance

theorem Tally.Covers.congr {m m' : Tally} {t : Transaction} (h : m.Covers t)
    (hm : m t.sender = m' t.sender) : m'.Covers t where
  amount := h.amount
  fee := h.fee
  nonce := hm ▸ h.nonce
  balance := hm ▸ h.balance

theorem Tally.covers_iff {m : Tally} {t : Transaction} {sender : Account}
    (hsender : sender.entry = m t.sender) (hamount : 0 ≤ t.amount.toInt) (hfee : 0 ≤ t.fee.toInt) :
    m.Covers t ↔
      t.nonce = sender.nonce ∧ t.amount.toInt + t.fee.toInt ≤ sender.balance.toInt := by
  constructor
  · intro h
    have hnonce := h.nonce
    have hbalance := h.balance
    rw [← hsender] at hnonce hbalance
    exact ⟨Int64.toInt_inj.1 hnonce, hbalance⟩
  · rintro ⟨hnonce, hbalance⟩
    refine ⟨hamount, hfee, ?_, ?_⟩
    · rw [← hsender, hnonce]
      rfl
    · rw [← hsender]
      exact hbalance

variable [Crypto]

/-- The chain is audited, and every transfer was covered when its block
joined. -/
structure Covered (main : List Block) : Prop extends Audited main where
  covers : ∀ lo b hi, main = lo ++ b::hi → lo ≠ [] → b.transaction.isTransfer = true →
    (Tally.replay lo).Covers b.transaction

namespace Covered

variable {main lo hi : List Block} {b : Block}

theorem nil : Covered [] where
  toAudited := .nil
  covers lo b hi h := by simp at h

theorem left (h : Covered (lo ++ hi)) : Covered lo where
  toAudited := h.toAudited.left
  covers pre b post hsplit := by
    apply h.covers pre b (post ++ hi)
    simp [hsplit]

theorem opening (h : Audited [b]) : Covered [b] where
  toAudited := h
  covers lo x hi hsplit hne := by
    have hgrown : [] ++ [b] = lo ++ x::hi := hsplit
    rcases split_concat hgrown with ⟨rfl, -⟩ | ⟨mid, hmain, -⟩
    · exact absurd rfl hne
    · simp at hmain

theorem concat (h : Covered main) (hb : Audited (main ++ [b]))
    (hcovers : b.transaction.isTransfer = true → (Tally.replay main).Covers b.transaction) :
    Covered (main ++ [b]) where
  toAudited := hb
  covers lo x hi hsplit hne ht := by
    rcases split_concat hsplit with ⟨rfl, rfl, -⟩ | ⟨mid, hmain, -⟩
    · exact hcovers ht
    · exact h.covers lo x mid hmain hne ht

end Covered

variable {r : Repository} {m : Tally} {t : Transaction}

open Check

theorem Tally.Covers.stored (h : m.Covers t) (ht : t.isTransfer = true) : m.Covers t.stored := by
  rw [Transaction.stored_transfer ht]
  exact ⟨h.amount, h.fee, h.nonce, h.balance⟩

theorem covers_of_postStates {miner : PublicKey} {states : PostStates} {chain : Bytes}
    (hm : ∀ pk a, r.account t.chain pk = .ok a → a.entry = m pk)
    (hvalid : validateTransaction t chain = .ok ()) (ht : t.isTransfer = true)
    (h : postStates r miner t = .ok states) : m.Covers t := by
  simp only [postStates, statesAfter, ht, if_true, bind_eq_ok, require_eq_ok, ofOption_eq_ok] at h
  obtain ⟨l, hl, _, hnonce, needed, hneeded, _, hbalance, -⟩ := h
  have hsender : (l t.sender).entry = m t.sender := tally_ledgerBefore hm hl (.inr (.inl rfl))
  obtain ⟨hamount, hfee⟩ := nonneg_of_validateTransaction hvalid ht
  refine ⟨hamount, hfee, ?_, ?_⟩
  · rw [← hsender, hnonce]
    rfl
  · rw [← hsender, ← Checked.toInt_add? hneeded]
    exact Int64.le_iff_toInt_le.1 hbalance

theorem Fits.covers {K : Registry} {A : Book} {b parent : Block} (h : Fits r b parent)
    (hA : A.Sound K) (hr : r.Keeps A) (ha : Audited (A.main b.chain))
    (ht : b.transaction.isTransfer = true) :
    (Tally.replay (A.main b.chain)).Covers b.transaction := by
  obtain ⟨states, hstates, -⟩ := h.states
  apply covers_of_postStates ?_ h.transaction ht hstates
  intro pk a hq
  rw [h.chain, hr.account_eq hA] at hq
  cases hq
  exact ha.entry_accountOn pk

/-- On best chains, transfers are covered. -/
theorem law_covered : Law Covered where
  nil := .nil
  left _ _ h := h.left
  begins main h := law_audited.begins main h.toAudited
  opens b h := .opening (law_audited.opens b h)
  joins hA hr h ha := by
    obtain ⟨parent, -, hfits⟩ := h.fits hA hr
    apply ha.concat (law_audited.joins hA hr h ha.toAudited)
    intro ht
    rw [Block.transaction_stored, Transaction.isTransfer_stored] at ht
    rw [Block.transaction_stored]
    exact (hfits.covers hA hr ha.toAudited ht).stored ht

theorem NodeCall.covered_of_admissible {calls : List NodeCall}
    (h : Admissible (blocksFrom .empty calls)) : ∃ K, Accounted Covered K (run calls) := by
  apply accounted_of_law law_covered h
  intro call _
  cases call with
  | openChain miner timestamp balance => exact .opening (miner.audited_genesis timestamp balance)
  | _ => trivial

end ChainState
