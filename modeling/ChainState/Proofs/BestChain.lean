import ChainState.Proofs.Accounts
import ChainState.Proofs.History

/-!
# The spine of a chain and the threads along it

After any history the records of a chain describe one list of linked blocks
from tail to tip, with the height records naming exactly its blocks. Along
this list the links of every account name the nearest blocks on either side,
and its span the two ends. So an account is always found, and holds what the
last block that names it carries.
-/

set_option autoImplicit false

namespace ChainState

section

attribute [local instance] checksum

def firstBlock : Block where
  version := .current
  chain := [0x61]
  timestamp := 0
  height := 0
  parent := .zero
  baseTarget := 1
  cumulativeDifficulty := 0
  generationSignature := .zero
  transaction := .blank
  miner := .zero
  states := .zero
  signature := .zero

def secondBlock : Block :=
  .hashed { firstBlock.toContent with timestamp := 1, height := 1, parent := firstBlock.hash }

end

section

variable [Crypto]

/-- The records of a chain describe the given blocks, the tail first. -/
structure Spine (r : Repository) (chain : Bytes) (main : List Block) : Prop where
  tail : r.tailHash chain = .ok (main.head?.map Block.hash)
  tip : r.tipHash chain = .ok (main.getLast?.map Block.hash)
  stored : ∀ b ∈ main, r.findBlock b.hash = .ok (some b)
  onChain : ∀ b ∈ main, b.chain = chain
  linked : main.IsChain fun a b => b.parent = a.hash ∧ b.height.toInt = a.height.toInt + 1
  listed : ∀ b ∈ main, r.mainHashAt chain b.height = .ok (some b.hash)
  unlisted : ∀ n, (∀ b ∈ main, b.height ≠ n) → r.mainHashAt chain n = .ok none

namespace Spine

variable {r : Repository} {c : Bytes} {main main' : List Block}

theorem heights_lt (h : Spine r c main) :
    main.Pairwise fun a b => a.height.toInt < b.height.toInt :=
  Block.pairwise_height_lt (h.linked.imp fun _ _ hl => by omega)

theorem subset (h : Spine r c main) (h' : Spine r c main') : main ⊆ main' := by
  intro b hb
  by_cases hn : ∃ a ∈ main', a.height = b.height
  · obtain ⟨a, ha, hn⟩ := hn
    have hhash : a.hash = b.hash := by
      have hl := h'.listed a ha
      rw [hn, h.listed b hb] at hl
      simpa using hl.symm
    have hs := h'.stored a ha
    rw [hhash, h.stored b hb] at hs
    obtain rfl : b = a := by simpa using hs
    exact ha
  · have hnone := h'.unlisted b.height fun a ha he => hn ⟨a, ha, he⟩
    rw [h.listed b hb] at hnone
    cases hnone

/-- The records of a chain describe one list of blocks. -/
theorem unique (h : Spine r c main) (h' : Spine r c main') : main' = main := by
  have hirrefl : Std.Irrefl fun a b : Block => a.height.toInt < b.height.toInt :=
    ⟨fun a => lt_irrefl _⟩
  have hantisymm : Std.Antisymm fun a b : Block => a.height.toInt < b.height.toInt :=
    ⟨fun a b hab hba => absurd hab (lt_asymm hba)⟩
  exact List.Subset.antisymm_of_pairwise h'.heights_lt h.heights_lt (h'.subset h) (h.subset h')

end Spine

/-- The span over the given blocks, the oldest first. -/
def Span.over (blocks : List Block) : Option Span :=
  blocks.getLast?.bind fun latest => blocks.head?.map fun oldest => ⟨latest.hash, oldest.hash⟩

/-- The spans and links of a repository thread the accounts along the best
chains. -/
structure ThreadsAlong (r : Repository) (main : Bytes → List Block) : Prop where
  span : ∀ c pk, r.findSpan c pk = .ok (Span.over ((main c).filter (pk ∈ ·.affected)))
  linked : ∀ hash, ∃ o, r.findLinks hash = .ok o ∧
    (o.isSome = true ↔ ∃ c, ∃ b ∈ main c, b.hash = hash)
  neighbours : ∀ c lo b hi, main c = lo ++ b::hi → ∀ pk ∈ b.affected, ∃ l : Links,
    r.findLinks b.hash = .ok (some l) ∧
    l.previous.find? pk =
      some (((lo.filter (pk ∈ ·.affected)).getLast?.map Block.hash).getD .zero) ∧
    l.next.find? pk = (hi.filter (pk ∈ ·.affected)).head?.map Block.hash

namespace Repository.Keeps

variable {K : Registry} {A : Book} {r : Repository}

theorem spine (hr : r.Keeps A) (hA : A.Sound K) (c : Bytes) : Spine r c (A.main c) where
  tail := hr.tailHash_eq c
  tip := hr.tipHash_eq c
  stored b hb := hr.findBlock_of_holds hA (hA.holds_of_mem hb)
  onChain b hb := hA.chain c b hb
  linked := (hA.linked c).imp fun _ _ h => ⟨h.1, Checked.toInt_succ? h.2⟩
  listed b hb := by
    rw [hr.mainHashAt_eq hA, (Book.mainAt_eq_some hA).2 ⟨hb, rfl⟩]
    rfl
  unlisted n hn := by
    have hnone : A.mainAt c n = none := Option.eq_none_iff_forall_ne_some.2 fun b hb => by
      obtain ⟨hm, he⟩ := (Book.mainAt_eq_some hA).1 hb
      exact hn b hm he
    rw [hr.mainHashAt_eq hA, hnone]
    rfl

theorem threadsAlong (hr : r.Keeps A) (hA : A.Sound K) : ThreadsAlong r A.main where
  span c pk := by
    rw [(hr.threads c).findSpan_eq]
    simp only [Book.thread, Book.naming, Thread.span?, Span.over]
    cases h : ((A.main c).filter (pk ∈ ·.affected)) with
    | nil => rfl
    | cons b rest => simp [List.getLast?_cons]
  linked hash := by
    by_cases h : ∃ c, hash ∈ A.nodes c
    · obtain ⟨c, hc⟩ := h
      obtain ⟨l, hl, -⟩ := hr.findLinks_some hc
      obtain ⟨b, hb, rfl⟩ := List.mem_map.1 hc
      exact ⟨some l, hl, fun _ => ⟨c, b, hb, rfl⟩, fun _ => rfl⟩
    · have hnone : ∀ c, hash ∉ A.nodes c := fun c hc => h ⟨c, hc⟩
      refine ⟨none, hr.findLinks_none hnone, ⟨by simp, ?_⟩⟩
      rintro ⟨c, b, hb, rfl⟩
      exact absurd (List.mem_map_of_mem hb) (hnone c)
  neighbours c lo b hi hm pk hpk := by
    have hsplit : A.naming c pk =
        lo.filter (pk ∈ ·.affected) ++ b::hi.filter (pk ∈ ·.affected) := by
      simp [Book.naming, hm, hpk]
    exact hr.links_of_naming hA hsplit

end Repository.Keeps

namespace ChainCall

theorem spine_book {calls : List ChainCall} (h : Admissible (calls.filterMap block?))
    (chain : Bytes) : Spine (run calls) chain ((book calls).main chain) := by
  obtain ⟨hA, hr⟩ := keeps_book h
  exact hr.spine hA chain

/-- After any history, tip and tail of a chain are both absent and no height
is listed, or a list of linked blocks leads from the tail to the tip, and the
heights listed are those of its blocks. -/
theorem run_spine {calls : List ChainCall} (h : Admissible (calls.filterMap block?))
    (chain : Bytes) :
    ((run calls).tipHash chain = .ok none ∧ (run calls).tailHash chain = .ok none ∧
        ∀ n, (run calls).mainHashAt chain n = .ok none) ∨
      ∃ main, main ≠ [] ∧ Spine (run calls) chain main := by
  obtain ⟨A, hA, hr⟩ := keeps_of_admissible h
  have hspine := hr.spine hA chain
  by_cases hm : A.main chain = []
  · rw [hm] at hspine
    exact .inl ⟨hspine.tip, hspine.tail, fun n => hspine.unlisted n (by simp)⟩
  · exact .inr ⟨A.main chain, hm, hspine⟩

end ChainCall

end

section

attribute [local instance] checksum

def pairCalls : List ChainCall :=
  [.connectTip firstBlock, .connectTip secondBlock, .rollBack secondBlock,
    .connectTip secondBlock]

theorem admissible_pair : Admissible [firstBlock, secondBlock] := by decide +kernel

theorem admissible_pairCalls : Admissible (pairCalls.filterMap ChainCall.block?) :=
  admissible_pair.mono (by simp [pairCalls, ChainCall.block?])

theorem spine_pairCalls :
    Spine (ChainCall.run pairCalls) [0x61] [firstBlock.stored, secondBlock.stored] := by
  have hmain : (ChainCall.book pairCalls).main [0x61] =
      [firstBlock.stored, secondBlock.stored] := by decide +kernel
  exact hmain ▸ ChainCall.spine_book admissible_pairCalls [0x61]

/-- The list leads from the first block to the second. -/
theorem ChainCall.run_spine_pair : Admissible (pairCalls.filterMap block?) ∧
    Spine (run pairCalls) [0x61] [firstBlock.stored, secondBlock.stored] := by
  refine ⟨admissible_pairCalls, ?_⟩
  rcases run_spine admissible_pairCalls [0x61] with ⟨htip, -, -⟩ | ⟨main, -, hspine⟩
  · cases htip.symm.trans spine_pairCalls.tip
  · rwa [spine_pairCalls.unique hspine] at hspine

end

/-- After any history, every account is threaded along the best chain of every
chain id. -/
theorem ChainCall.run_threads [Crypto] {calls : List ChainCall}
    (h : Admissible (calls.filterMap block?)) :
    ∃ main : Bytes → List Block,
      (∀ chain, Spine (run calls) chain (main chain)) ∧ ThreadsAlong (run calls) main := by
  obtain ⟨A, hA, hr⟩ := keeps_of_admissible h
  exact ⟨A.main, hr.spine hA, hr.threadsAlong hA⟩

section

attribute [local instance] checksum

/-- The miner of both blocks is threaded from the first to the second. -/
theorem ChainCall.run_threads_pair : Admissible (pairCalls.filterMap block?) ∧
    (∃ main : Bytes → List Block, (∀ chain, Spine (run pairCalls) chain (main chain)) ∧
      main [0x61] = [firstBlock.stored, secondBlock.stored] ∧ ThreadsAlong (run pairCalls) main) ∧
    (run pairCalls).findSpan [0x61] firstBlock.miner =
      .ok (some ⟨secondBlock.hash, firstBlock.hash⟩) := by
  obtain ⟨main, hspine, hthreads⟩ := run_threads admissible_pairCalls
  have hmain := spine_pairCalls.unique (hspine [0x61])
  refine ⟨admissible_pairCalls, ⟨main, hspine, hmain, hthreads⟩, ?_⟩
  rw [hthreads.span, hmain]
  exact congrArg Except.ok (by decide +kernel)

end

/-- After any history, no look-up of an account fails. It gives the state that
the highest best-chain block naming the account carries, and the look-up that
trusts the span gives the same. -/
theorem ChainCall.run_accounts [Crypto] {calls : List ChainCall}
    (h : Admissible (calls.filterMap block?)) :
    ∃ main : Bytes → List Block, (∀ chain, Spine (run calls) chain (main chain)) ∧
      ∀ chain pk, ∃ account, HeldAfter (main chain) pk account ∧
        (run calls).account chain pk = .ok account ∧
        (run calls).accountUnverified chain pk = .ok account := by
  obtain ⟨A, hA, hr⟩ := keeps_of_admissible h
  refine ⟨A.main, hr.spine hA, fun chain pk => ?_⟩
  exact ⟨accountOn (A.main chain) pk, heldAfter_accountOn (A.main chain) pk,
    hr.account_eq hA chain pk, hr.accountUnverified_eq hA chain pk⟩

section

attribute [local instance] checksum

/-- The second block is the highest that names its miner. -/
theorem ChainCall.run_accounts_pair : Admissible (pairCalls.filterMap block?) ∧
    ∃ account, secondBlock.stored.account? secondBlock.miner = some account ∧
      (run pairCalls).account [0x61] secondBlock.miner = .ok account ∧
      (run pairCalls).accountUnverified [0x61] secondBlock.miner = .ok account := by
  obtain ⟨main, hspine, haccounts⟩ := run_accounts admissible_pairCalls
  obtain ⟨account, hheld, hread, hread'⟩ := haccounts [0x61] secondBlock.miner
  rw [spine_pairCalls.unique (hspine [0x61])] at hheld
  refine ⟨admissible_pairCalls, account, ?_, hread, hread'⟩
  have hnamed : secondBlock.miner ∈ secondBlock.stored.affected := by decide +kernel
  cases hheld with
  | unnamed h => exact absurd hnamed (h _ (by simp))
  | @carried lo hi b _ split _ last state =>
    rcases List.eq_nil_or_concat hi with rfl | ⟨above, x, rfl⟩
    · obtain rfl : secondBlock.stored = b := by simpa using congrArg List.getLast? split
      exact state
    · have split' : [firstBlock.stored] ++ [secondBlock.stored] = (lo ++ b :: above) ++ [x] := by
        simpa using split
      obtain rfl : secondBlock.stored = x := by simpa using (List.append_inj' split' rfl).2
      exact absurd hnamed (last _ (by simp))

end

end ChainState
