import ChainState.Proofs.Accounts
import ChainState.Proofs.Checks

/-!
# Replaying a best chain

A tally holds a balance and a nonce for every key, in whole numbers. Replaying
the transactions of a best chain from its first block to its tip gives a
tally; the blocks themselves hold snapshots. A best chain is audited if every
snapshot shows what the tally holds after its block.
-/

set_option autoImplicit false

namespace ChainState

structure Entry where
  balance : Int
  nonce : Int
  deriving DecidableEq

def Holding.entry (held : Holding) : Entry := ⟨held.balance.toInt, held.nonce.toInt⟩

def Account.entry (a : Account) : Entry := ⟨a.balance.toInt, a.nonce.toInt⟩

abbrev Tally := PublicKey → Entry

namespace Tally

def zero : Tally := fun _ => ⟨0, 0⟩

def spend (m : Tally) (sender : PublicKey) (needed : Int) : Tally :=
  fun pk => if pk = sender then ⟨(m pk).balance - needed, (m pk).nonce + 1⟩ else m pk

def credit (m : Tally) (receiver : PublicKey) (amount : Int) : Tally :=
  fun pk => if pk = receiver then ⟨(m pk).balance + amount, (m pk).nonce⟩ else m pk

def transfer (m : Tally) (miner : PublicKey) (t : Transaction) : Tally :=
  ((m.spend t.sender (t.amount.toInt + t.fee.toInt)).credit t.receiver t.amount.toInt).credit
    miner t.fee.toInt

theorem balance_spend (m : Tally) (sender : PublicKey) (needed : Int) (pk : PublicKey) :
    (m.spend sender needed pk).balance = (m pk).balance - if pk = sender then needed else 0 := by
  unfold spend
  split <;> simp

theorem nonce_spend (m : Tally) (sender : PublicKey) (needed : Int) (pk : PublicKey) :
    (m.spend sender needed pk).nonce = (m pk).nonce + if pk = sender then 1 else 0 := by
  unfold spend
  split <;> simp

theorem balance_credit (m : Tally) (receiver : PublicKey) (amount : Int) (pk : PublicKey) :
    (m.credit receiver amount pk).balance =
      (m pk).balance + if pk = receiver then amount else 0 := by
  unfold credit
  split <;> simp

theorem nonce_credit (m : Tally) (receiver : PublicKey) (amount : Int) (pk : PublicKey) :
    (m.credit receiver amount pk).nonce = (m pk).nonce := by
  unfold credit
  split <;> rfl

theorem transfer_congr {m m' : Tally} {pk : PublicKey} (h : m pk = m' pk) (miner : PublicKey)
    (t : Transaction) : m.transfer miner t pk = m'.transfer miner t pk := by
  simp only [transfer, credit, spend, h]

variable [Crypto]

/-- Only a transfer changes what anyone holds. -/
def play (m : Tally) (b : Block) : Tally :=
  if b.transaction.isTransfer then m.transfer b.miner b.transaction else m

def opening (b : Block) : Tally := fun pk => if pk = b.miner then b.states.miner.entry else zero pk

def replay : List Block → Tally
  | [] => zero
  | first::rest => rest.foldl play (opening first)

theorem replay_concat {main : List Block} (h : main ≠ []) (b : Block) :
    replay (main ++ [b]) = (replay main).play b := by
  cases main with
  | nil => exact absurd rfl h
  | cons first rest => simp [replay]

theorem play_of_not_affected {b : Block} {pk : PublicKey} (h : pk ∉ b.affected) (m : Tally) :
    m.play b pk = m pk := by
  rw [Block.mem_affected] at h
  unfold play
  split
  · next ht =>
    have hm : pk ≠ b.miner := fun e => h (.inl e)
    have hs : pk ≠ b.transaction.sender := fun e => h (.inr ⟨ht, .inl e⟩)
    have hr : pk ≠ b.transaction.receiver := fun e => h (.inr ⟨ht, .inr e⟩)
    simp [transfer, credit, spend, hm, hs, hr]
  · rfl

end Tally

namespace Ledger

def tally (l : Ledger) : Tally := fun pk => (l pk).entry

open Check

theorem tally_set (l : Ledger) (pk : PublicKey) (held : Holding) :
    (l.set pk held).tally = fun x => if x = pk then held.entry else l.tally x := by
  funext x
  by_cases hx : x = pk <;> simp [tally, set, hx]

theorem tally_spend {l l' : Ledger} {sender : PublicKey} {needed : Int64}
    (h : l.spend sender needed = .ok l') : l'.tally = l.tally.spend sender needed.toInt := by
  simp only [spend, bind_eq_ok, pure_eq_ok] at h
  obtain ⟨balance, hbalance, nonce, hnonce, rfl⟩ := h
  have hb := Checked.toInt_sub hbalance
  have hn : nonce.toInt = (l sender).nonce.toInt + 1 := Checked.toInt_add hnonce
  rw [tally_set]
  funext x
  by_cases hx : x = sender
  · subst hx
    simp [Tally.spend, Holding.entry, tally, hb, hn]
  · simp [Tally.spend, hx]

theorem tally_credit {l l' : Ledger} {pk : PublicKey} {amount : Int64}
    (h : l.credit pk amount = .ok l') : l'.tally = l.tally.credit pk amount.toInt := by
  simp only [credit, bind_eq_ok, pure_eq_ok] at h
  obtain ⟨balance, hbalance, rfl⟩ := h
  have hb := Checked.toInt_add hbalance
  rw [tally_set]
  funext x
  by_cases hx : x = pk
  · subst hx
    simp [Tally.credit, Holding.entry, tally, hb]
  · simp [Tally.credit, hx]

theorem tally_transfer {l l' : Ledger} {miner : PublicKey} {t : Transaction} {needed : Int64}
    (hneeded : Checked.add? t.amount t.fee = some needed)
    (h : l.transfer miner t needed = .ok l') : l'.tally = l.tally.transfer miner t := by
  simp only [transfer, bind_eq_ok] at h
  obtain ⟨spent, hspent, paid, hpaid, hfee⟩ := h
  rw [tally_credit hfee, tally_credit hpaid, tally_spend hspent, Tally.transfer,
    Checked.toInt_add? hneeded]

end Ledger

variable [Crypto]

/-- The states that a block carries are those that its transaction leads to. -/
structure Block.Carries (b : Block) (states : PostStates) : Prop where
  miner : b.states.miner = states.miner
  parties : b.transaction.isTransfer = true →
    b.states.sender = states.sender ∧ b.states.receiver = states.receiver

instance (b : Block) (states : PostStates) : Decidable (b.Carries states) :=
  decidable_of_iff (b.states.miner = states.miner ∧ (b.transaction.isTransfer = true →
      b.states.sender = states.sender ∧ b.states.receiver = states.receiver))
    ⟨fun ⟨hminer, hparties⟩ => ⟨hminer, hparties⟩, fun h => ⟨h.miner, h.parties⟩⟩

/-- The states that a block carries show what the tally holds. -/
def Block.Shows (b : Block) (m : Tally) : Prop :=
  ∀ pk held, b.holding? pk = some held → held.entry = m pk

theorem Block.shows_of_roles {b : Block} {m : Tally}
    (hminer : b.states.miner.entry = m b.miner)
    (hparties : b.transaction.isTransfer = true →
      b.states.sender.entry = m b.transaction.sender ∧
      b.states.receiver.entry = m b.transaction.receiver) : b.Shows m := by
  intro pk held h
  unfold holding? at h
  split at h
  · next hs =>
    obtain ⟨ht, rfl⟩ := hs
    cases h
    exact (hparties ht).1
  · split at h
    · next hr =>
      obtain ⟨ht, rfl⟩ := hr
      cases h
      exact (hparties ht).2
    · split at h
      · next hm =>
        subst hm
        cases h
        exact hminer
      · cases h

open Check

theorem Tally.play_stored (m : Tally) (b : Block) : m.play b.stored = m.play b := by
  unfold play transfer
  rw [Block.transaction_stored, Transaction.isTransfer_stored, Block.miner_stored]
  split
  · next ht =>
    rw [Transaction.stored_transfer ht]
    rfl
  · rfl

theorem Block.shows_stored {b : Block} {m : Tally} (h : b.Shows (m.play b)) :
    b.stored.Shows (m.play b.stored) := by
  intro pk held hheld
  rw [Tally.play_stored]
  rw [Block.holding?_stored] at hheld
  exact h pk held hheld

theorem tally_ledgerBefore {r : Repository} {m : Tally} {miner : PublicKey} {t : Transaction}
    {l : Ledger} (hm : ∀ pk a, r.account t.chain pk = .ok a → a.entry = m pk)
    (h : ledgerBefore r miner t = .ok l) {pk : PublicKey}
    (hpk : pk = miner ∨ pk = t.sender ∨ pk = t.receiver) : l.tally pk = m pk := by
  simp only [ledgerBefore, holdingOf, bind_eq_ok, pure_eq_ok, ofQuery_eq_ok] at h
  obtain ⟨_, ⟨a, ha, rfl⟩, _, ⟨b, hb, rfl⟩, _, ⟨c, hc, rfl⟩, rfl⟩ := h
  simp only [Ledger.tally]
  split
  · next e => exact e ▸ hm miner a ha
  · split
    · next e => exact e ▸ hm t.sender b hb
    · next h₁ h₂ =>
      obtain rfl := (hpk.resolve_left h₁).resolve_left h₂
      rw [if_pos rfl]
      exact hm _ c hc

theorem shows_of_postStates {r : Repository} {b : Block} {m : Tally} {states : PostStates}
    (hm : ∀ pk a, r.account b.transaction.chain pk = .ok a → a.entry = m pk)
    (h : postStates r b.miner b.transaction = .ok states) (hb : b.Carries states) :
    b.Shows (m.play b) := by
  simp only [postStates, bind_eq_ok] at h
  obtain ⟨l, hl, h⟩ := h
  rw [statesAfter] at h
  by_cases ht : b.transaction.isTransfer = true
  · simp only [ht, if_true, bind_eq_ok, ofOption_eq_ok, ofChecked_eq_ok, pure_eq_ok] at h
    obtain ⟨_, -, needed, hneeded, _, -, after, hafter, rfl⟩ := h
    have htally := Ledger.tally_transfer hneeded hafter
    have hplay : ∀ pk, pk = b.miner ∨ pk = b.transaction.sender ∨ pk = b.transaction.receiver →
        (after pk).entry = m.play b pk := by
      intro pk hpk
      have := congrFun htally pk
      rw [Ledger.tally] at this
      rw [this, Tally.play, if_pos ht]
      exact Tally.transfer_congr (tally_ledgerBefore hm hl hpk) _ _
    apply Block.shows_of_roles
    · rw [hb.miner]
      exact hplay _ (.inl rfl)
    · intro _
      obtain ⟨hs, hr⟩ := hb.parties ht
      rw [hs, hr]
      exact ⟨hplay _ (.inr (.inl rfl)), hplay _ (.inr (.inr rfl))⟩
  · simp only [ht, Bool.false_eq_true, if_false, pure_eq_ok] at h
    subst h
    apply Block.shows_of_roles
    · rw [hb.miner, Tally.play, if_neg ht]
      exact tally_ledgerBefore hm hl (.inl rfl)
    · exact fun h => absurd h ht

theorem split_concat {main lo hi : List Block} {b x : Block} (h : main ++ [b] = lo ++ x::hi) :
    (lo = main ∧ x = b ∧ hi = []) ∨ ∃ mid, main = lo ++ x::mid ∧ hi = mid ++ [b] := by
  rcases List.eq_nil_or_concat' hi with rfl | ⟨mid, y, rfl⟩
  · obtain ⟨rfl, he⟩ := List.append_inj' h rfl
    obtain rfl : b = x := by simpa using he
    exact .inl ⟨rfl, rfl, rfl⟩
  · have hsplit : main ++ [b] = (lo ++ x::mid) ++ [y] := by simpa using h
    obtain ⟨hmain, hlast⟩ := List.append_inj' hsplit rfl
    exact .inr ⟨mid, hmain, by simpa using hlast.symm⟩

/-- The chain opens with a genesis block, and each block shows what the tally
of the chain up to it holds. -/
structure Audited (main : List Block) : Prop where
  opens : ∀ g ∈ main.head?, g.isGenesis = true ∧ g.transaction.isTransfer = false
  shows : ∀ lo b hi, main = lo ++ b::hi → b.Shows (Tally.replay (lo ++ [b]))

namespace Audited

variable {main lo hi : List Block} {b : Block}

theorem nil : Audited [] where
  opens _ h := nomatch h
  shows lo b hi h := by simp at h

theorem left (h : Audited (lo ++ hi)) : Audited lo where
  opens g hg := by
    apply h.opens
    rw [List.head?_append, hg]
    rfl
  shows pre b post hsplit := by
    apply h.shows pre b (post ++ hi)
    simp [hsplit]

theorem genesis (hg : b.isGenesis = true) (ht : b.transaction.isTransfer = false) :
    Audited [b] where
  opens g h := by
    obtain rfl : b = g := by simpa using h
    exact ⟨hg, ht⟩
  shows lo g hi h := by
    obtain ⟨rfl, rfl, rfl⟩ : lo = [] ∧ b = g ∧ hi = [] := by
      cases lo <;> simp_all
    apply Block.shows_of_roles
    · simp [Tally.replay, Tally.opening]
    · intro h
      rw [ht] at h
      cases h

theorem concat (h : Audited main) (hne : main ≠ []) (hb : b.Shows ((Tally.replay main).play b)) :
    Audited (main ++ [b]) where
  opens g hg := by
    apply h.opens
    rwa [List.head?_append_of_ne_nil _ hne] at hg
  shows lo x hi hsplit := by
    rcases split_concat hsplit with ⟨rfl, rfl, -⟩ | ⟨mid, hmain, -⟩
    · rw [Tally.replay_concat hne]
      exact hb
    · exact h.shows lo x mid hmain

/-- What an account holds on an audited chain is what the tally of the chain
gives it. -/
theorem entry_accountOn (h : Audited main) (pk : PublicKey) :
    (accountOn main pk).entry = Tally.replay main pk := by
  induction main using List.reverseRecOn with
  | nil => rfl
  | append_singleton lo b ih =>
    by_cases hpk : pk ∈ b.affected
    · obtain ⟨held, hheld⟩ := Option.isSome_iff_exists.1 (Block.holding?_isSome.2 hpk)
      rw [← h.shows lo b [] rfl pk held hheld]
      simp [accountOn, hpk, Block.account?, hheld, Account.entry, Holding.entry]
    · have hsame : accountOn (lo ++ [b]) pk = accountOn lo pk := by simp [accountOn, hpk]
      rw [hsame, ih h.left]
      rcases eq_or_ne lo [] with rfl | hne
      · have hm : pk ≠ b.miner := fun e => hpk (Block.mem_affected.2 (.inl e))
        simp [Tally.replay, Tally.opening, hm]
      · rw [Tally.replay_concat hne, Tally.play_of_not_affected hpk]

theorem balance_accountOn (h : Audited main) (pk : PublicKey) :
    (accountOn main pk).balance.toInt = (Tally.replay main pk).balance :=
  congrArg Entry.balance (h.entry_accountOn pk)

theorem nonce_accountOn (h : Audited main) (pk : PublicKey) :
    (accountOn main pk).nonce.toInt = (Tally.replay main pk).nonce :=
  congrArg Entry.nonce (h.entry_accountOn pk)

end Audited

end ChainState
