import ChainState.Proofs.Verdicts

/-!
# Laws of best chains

A law is a property of best chains that every block respects by which a node
lets a chain begin or grow. It survives a rollback, since it holds of what is
left below. Whatever a node does, its best chains therefore obey every law.
-/

set_option autoImplicit false

namespace ChainState

variable [Crypto]

/-- How a block comes to the tip of a best chain that is not empty. -/
inductive Enters (r : Repository) (b : Block) : Prop where
  | validated (h : validateBlock r b = .ok ())
  | built (miner : Miner) (t : Transaction) (now : Int64) (h : miner.build r t now = .ok b)

structure Law (P : List Block → Prop) : Prop where
  nil : P []
  left : ∀ lo hi, P (lo ++ hi) → P lo
  /-- A best chain begins with a block that has no parent. -/
  begins : ∀ main, P main → ∀ first ∈ main.head?, first.isGenesis = true
  opens : ∀ b, validateGenesis b = .ok () → P [b.stored]
  joins : ∀ {K : Registry} {A : Book} {r : Repository} {b : Block}, A.Sound K → r.Keeps A →
    Enters r b → P (A.main b.chain) → P (A.main b.chain ++ [b.stored])

variable {K : Registry} {A : Book} {r : Repository} {b : Block} {P : List Block → Prop}

open Check

theorem Enters.fits (h : Enters r b) (hA : A.Sound K) (hr : r.Keeps A) :
    ∃ parent, (A.main b.chain).getLast? = some parent ∧ Fits r b parent := by
  cases h with
  | validated h => exact fits_of_validateBlock hA hr h
  | built _ _ _ h => exact fits_of_build hA hr h

theorem Miner.audited_genesis (miner : Miner) (timestamp balance : Int64) :
    Audited [(miner.genesis timestamp balance).stored] := by
  apply ChainState.audited_genesis _ rfl
  simp [genesis, Block.sign, Block.isGenesis, FixedBytes.isZero]

theorem law_audited : Law Audited where
  nil := .nil
  left _ _ h := h.left
  begins _ h first hfirst := (h.opens first hfirst).1
  opens b h := by
    have hfits := validateGenesis_eq_ok.1 h
    exact audited_genesis hfits.isGenesis hfits.isNote
  joins hA hr h ha := by
    obtain ⟨parent, hparent, hfits⟩ := h.fits hA hr
    exact hfits.audited hA hr hparent ha

end ChainState
