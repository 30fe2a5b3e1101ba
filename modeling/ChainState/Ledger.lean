import ChainState.Block
import ChainState.Checked

/-!
# Effects of a transfer

A transfer takes amount and fee from its sender, whose nonce rises by one,
and gives the amount to the receiver and the fee to the miner. The effects
are applied one after the other, so a key in several roles sees all of them.
-/

set_option autoImplicit false

namespace ChainState

abbrev Ledger := PublicKey → Holding

namespace Ledger

def set (l : Ledger) (pk : PublicKey) (held : Holding) : Ledger :=
  fun x => if x = pk then held else l x

def spend (l : Ledger) (sender : PublicKey) (needed : Int64) : Except Overflow Ledger := do
  let balance ← Checked.sub (l sender).balance needed
  let nonce ← Checked.add (l sender).nonce 1
  return l.set sender ⟨balance, nonce⟩

def credit (l : Ledger) (pk : PublicKey) (amount : Int64) : Except Overflow Ledger := do
  let balance ← Checked.add (l pk).balance amount
  return l.set pk { l pk with balance }

def transfer (l : Ledger) (miner : PublicKey) (t : Transaction) (needed : Int64) :
    Except Overflow Ledger := do
  let l ← l.spend t.sender needed
  let l ← l.credit t.receiver t.amount
  l.credit miner t.fee

end Ledger

end ChainState
