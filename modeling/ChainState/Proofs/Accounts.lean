import ChainState.Proofs.Book

/-!
# What accounts hold along the best chain

An account is read off the latest best-chain block that names it, and its
power is the number of blocks in the window that do. Both depend on the best
chain of their chain id alone.
-/

set_option autoImplicit false

namespace ChainState

theorem length_le_of_rising {xs : List Int} {lo hi : Int} (h : xs.Pairwise (· < ·))
    (hx : ∀ x ∈ xs, lo < x ∧ x ≤ hi) : xs.length ≤ (hi - lo).toNat := by
  induction xs generalizing lo with
  | nil => simp
  | cons x xs ih =>
    obtain ⟨hlt, hrest⟩ := List.pairwise_cons.1 h
    have hle := ih hrest fun y hy => ⟨hlt y hy, (hx y (by simp [hy])).2⟩
    have hfirst := hx x (by simp)
    rw [List.length_cons]
    omega

theorem Checked.toInt_clampedSub_window (n : Int64) :
    n.toInt - 288 ≤ (clampedSub n Consensus.powerWindow).toInt := by
  have hw : Consensus.powerWindow.toInt = 288 := by decide
  have hmin : Int64.minValue.toInt = -9223372036854775808 := by decide
  have hmax : Int64.maxValue.toInt = 9223372036854775807 := by decide
  have hn := n.toInt_lt
  have hn' := n.le_toInt
  rw [clampedSub, hw, hmin, hmax, Int64.toInt_ofInt_of_le (by omega) (by omega)]
  omega

variable [Crypto]

def accountOn (main : List Block) (pk : PublicKey) : Account :=
  ((main.filter (pk ∈ ·.affected)).getLast?.bind (·.account? pk)).getD .absent

/-- What an account holds after the blocks, the tail first: what the last of
them that names it carries, or nothing if none does. -/
inductive HeldAfter (main : List Block) (pk : PublicKey) : Account → Prop
  | unnamed (h : ∀ b ∈ main, pk ∉ b.affected) : HeldAfter main pk .absent
  | carried {lo hi : List Block} {b : Block} {a : Account} (split : main = lo ++ b::hi)
      (named : pk ∈ b.affected) (last : ∀ x ∈ hi, pk ∉ x.affected)
      (state : b.account? pk = some a) : HeldAfter main pk a

def namingAbove (pk : PublicKey) (floor : Int64) (main : List Block) : List Block :=
  (main.filter (pk ∈ ·.affected)).filter (floor < ·.height)

def powerOn (main : List Block) (pk : PublicKey) : Int64 :=
  match main.getLast? with
  | none => 0
  | some tip =>
    let floor := Checked.clampedSub tip.height Consensus.powerWindow
    Int64.ofNat (namingAbove pk floor main).length

namespace Block

theorem mem_affected {b : Block} {pk : PublicKey} : pk ∈ b.affected ↔
    pk = b.miner ∨ b.transaction.isTransfer = true ∧
      (pk = b.transaction.sender ∨ pk = b.transaction.receiver) := by
  unfold affected
  split
  · next ht =>
    simp only [List.foldl_cons, List.foldl_nil, ht, true_and]
    grind
  · next ht => simp [ht]

theorem holding?_isSome {b : Block} {pk : PublicKey} :
    (b.holding? pk).isSome = true ↔ pk ∈ b.affected := by
  rw [mem_affected]
  unfold holding?
  split
  · next h => simp [h]
  · split
    · next h => simp [h]
    · split
      · next h => simp [h]
      · next h₁ h₂ h₃ => simp_all

theorem exists_account {b : Block} {pk : PublicKey} (h : pk ∈ b.affected) :
    ∃ a, b.account? pk = some a := by
  obtain ⟨held, hheld⟩ := Option.isSome_iff_exists.1 (holding?_isSome.2 h)
  rw [account?, hheld]
  exact ⟨_, rfl⟩

end Block

theorem heldAfter_accountOn (main : List Block) (pk : PublicKey) :
    HeldAfter main pk (accountOn main pk) := by
  rw [accountOn]
  rcases List.eq_nil_or_concat' (main.filter (pk ∈ ·.affected)) with hn | ⟨before, b, hn⟩
  · rw [hn]
    rw [List.filter_eq_nil_iff] at hn
    exact .unnamed fun b hb => by simpa using hn b hb
  · obtain ⟨left, right, rfl, -, hright⟩ := List.filter_eq_append_iff.1 hn
    obtain ⟨gap, hi, rfl, -, hb, hhi⟩ := List.filter_eq_cons_iff.1 hright
    have hnamed : pk ∈ b.affected := by simpa using hb
    obtain ⟨a, ha⟩ := Block.exists_account hnamed
    rw [hn, List.getLast?_concat, Option.bind_some, ha, Option.getD_some]
    refine .carried (List.append_assoc left gap _).symm hnamed (fun x hx => ?_) ha
    rw [List.filter_eq_nil_iff] at hhi
    simpa using hhi x hx

namespace Book.Sound

variable {K : Registry} {A : Book}

theorem namingAbove_le (hA : A.Sound K) {c : Bytes} {tip : Block}
    (htip : (A.main c).getLast? = some tip) (pk : PublicKey) :
    (namingAbove pk (Checked.clampedSub tip.height Consensus.powerWindow)
      (A.main c)).length ≤ 288 := by
  have hfloor := Checked.toInt_clampedSub_window tip.height
  have hsub : (namingAbove pk (Checked.clampedSub tip.height Consensus.powerWindow)
      (A.main c)).Sublist (A.main c) := List.filter_sublist.trans List.filter_sublist
  have hle := Block.height_le_last (hA.heights_lt c) htip
  have hrising := List.pairwise_map.2 ((hA.heights_lt c).sublist hsub)
  have hwithin : ∀ n ∈ (namingAbove pk (Checked.clampedSub tip.height Consensus.powerWindow)
      (A.main c)).map (·.height.toInt), tip.height.toInt - 288 < n ∧ n ≤ tip.height.toInt := by
    intro n hn
    obtain ⟨x, hx, rfl⟩ := List.mem_map.1 hn
    have hlow : Checked.clampedSub tip.height Consensus.powerWindow < x.height := by
      simpa using (List.mem_filter.1 hx).2
    rw [Int64.lt_iff_toInt_lt] at hlow
    have := hle x (hsub.subset hx)
    omega
  have hlen := length_le_of_rising hrising hwithin
  rw [List.length_map] at hlen
  omega

theorem height_le_of_naming (hA : A.Sound K) {c : Bytes} {pk : PublicKey} {lo hi : List Block}
    {b : Block} (h : A.naming c pk = (lo ++ [b]) ++ hi) : ∀ x ∈ lo ++ [b], x.height ≤ b.height := by
  have hrising := (hA.heights_lt c).sublist
    (show (A.naming c pk).Sublist _ from List.filter_sublist)
  rw [h] at hrising
  intro x hx
  rw [Int64.le_iff_toInt_le]
  exact Block.height_le_last (List.pairwise_append.1 hrising).1 (by simp) x hx

end Book.Sound

namespace Repository.Keeps

variable {r : Repository} {A : Book} {K : Registry}

theorem findSpan_cases (hr : r.Keeps A) (c : Bytes) (pk : PublicKey) :
    (A.naming c pk = [] ∧ r.findSpan c pk = .ok none) ∨
      ∃ lo b oldest, A.naming c pk = lo ++ [b] ∧ b ∈ A.main c ∧ pk ∈ b.affected ∧
        r.findSpan c pk = .ok (some ⟨b.hash, oldest⟩) := by
  rw [(hr.threads c).findSpan_eq, Book.thread]
  rcases List.eq_nil_or_concat' (A.naming c pk) with hn | ⟨lo, b, hn⟩
  · rw [hn]
    exact .inl ⟨rfl, rfl⟩
  · have hb : b ∈ A.naming c pk := by simp [hn]
    obtain ⟨hm, hpk⟩ := List.mem_filter.1 hb
    rw [hn, List.map_append, List.map_singleton, Thread.span?_concat]
    exact .inr ⟨lo, b, _, rfl, hm, of_decide_eq_true hpk, rfl⟩

theorem account_eq (hr : r.Keeps A) (hA : A.Sound K) (c : Bytes) (pk : PublicKey) :
    r.account c pk = .ok (accountOn (A.main c) pk) := by
  rcases hr.findSpan_cases c pk with ⟨hn, hq⟩ | ⟨lo, b, oldest, hn, hm, hpk, hq⟩
  · rw [Book.naming] at hn
    rw [account, hq, accountOn, hn]
    rfl
  · obtain ⟨a, ha⟩ := Block.exists_account hpk
    have hmain : A.mainAt c b.height = some b := (Book.mainAt_eq_some hA).2 ⟨hm, rfl⟩
    rw [Book.naming] at hn
    simp only [account, hq, bind, Except.bind, hr.namedBlock_of_holds hA (hA.holds_of_mem hm),
      hr.mainHashAt_eq hA, hmain, accountOn, hn]
    simp [ha, pure, Except.pure]

theorem accountUnverified_eq (hr : r.Keeps A) (hA : A.Sound K) (c : Bytes) (pk : PublicKey) :
    r.accountUnverified c pk = .ok (accountOn (A.main c) pk) := by
  rcases hr.findSpan_cases c pk with ⟨hn, hq⟩ | ⟨lo, b, oldest, hn, hm, hpk, hq⟩
  · rw [Book.naming] at hn
    rw [accountUnverified, hq, accountOn, hn]
    rfl
  · rw [Book.naming] at hn
    simp only [accountUnverified, hq, bind, Except.bind,
      hr.namedBlock_of_holds hA (hA.holds_of_mem hm), accountOn, hn]
    simp [pure, Except.pure]

theorem hasAccount_eq (hr : r.Keeps A) (c : Bytes) (pk : PublicKey) :
    r.hasAccount c pk = .ok ((A.main c).any (pk ∈ ·.affected)) := by
  rcases hr.findSpan_cases c pk with ⟨hn, hq⟩ | ⟨lo, b, oldest, hn, hm, hpk, hq⟩
  · rw [Book.naming, List.filter_eq_nil_iff] at hn
    have hnone : (A.main c).any (pk ∈ ·.affected) = false := List.any_eq_false.2 hn
    rw [hasAccount, hq, hnone]
    rfl
  · have hsome : (A.main c).any (pk ∈ ·.affected) = true :=
      List.any_eq_true.2 ⟨b, hm, decide_eq_true hpk⟩
    rw [hasAccount, hq, hsome]
    rfl

theorem links_of_naming (hr : r.Keeps A) (hA : A.Sound K) {c : Bytes} {pk : PublicKey}
    {lo hi : List Block} {b : Block} (h : A.naming c pk = lo ++ b::hi) :
    ∃ l : Links, r.findLinks b.hash = .ok (some l) ∧
      l.previous.find? pk = some ((lo.getLast?.map Block.hash).getD .zero) ∧
      l.next.find? pk = hi.head?.map Block.hash := by
  have hb : b ∈ A.naming c pk := by simp [h]
  obtain ⟨l, hl, hf⟩ := hr.findLinks_some (List.mem_map_of_mem (List.mem_filter.1 hb).1)
  have hsplit : A.thread c pk = lo.map Block.hash ++ b.hash::hi.map Block.hash := by
    simp [Book.thread, h]
  have hn := (hA.within c).nodup pk
  rw [hsplit] at hn
  obtain ⟨-, hright, hcross⟩ := List.nodup_append.1 hn
  have hlo : b.hash ∉ lo.map Block.hash := fun h => hcross _ h _ (by simp) rfl
  have hhi : b.hash ∉ hi.map Block.hash := (List.nodup_cons.1 hright).1
  refine ⟨l, hl, ?_, ?_⟩
  · rw [hf.previous, hsplit, if_pos (by simp), Thread.below_split hhi, List.getLast?_map]
  · rw [hf.next, hsplit, Thread.above_split hlo, List.head?_map]

theorem countHistory_eq (hr : r.Keeps A) (hA : A.Sound K) {c : Bytes} {pk : PublicKey}
    (floor : Int64) {lo hi : List Block} (h : A.naming c pk = lo ++ hi) {steps : Nat}
    (hsteps : (lo.filter (floor < ·.height)).length ≤ steps) :
    r.countHistory pk floor steps ((lo.getLast?.map Block.hash).getD .zero) =
      .ok (lo.filter (floor < ·.height)).length := by
  induction lo using List.reverseRecOn generalizing hi steps with
  | nil => cases steps <;> rfl
  | append_singleton lo b ih =>
    have hsplit : A.naming c pk = lo ++ b::hi := by simp [h]
    have hm : b ∈ A.main c := (List.mem_filter.1 (show b ∈ A.naming c pk by simp [h])).1
    have hnonzero : b.hash.isZero = false := by
      simpa [FixedBytes.isZero] using hA.nodes_ne_zero (List.mem_map_of_mem hm)
    cases steps with
    | zero =>
      rw [Nat.le_zero.1 hsteps]
      rfl
    | succ steps =>
      simp only [List.getLast?_concat, Option.map_some, Option.getD_some, countHistory,
        hnonzero, Bool.false_eq_true, if_false, bind, Except.bind,
        hr.findBlock_of_holds hA (hA.holds_of_mem hm)]
      by_cases hfloor : b.height ≤ floor
      · -- the heights fall, so nothing further down lies above the floor
        have hnone : (lo ++ [b]).filter (floor < ·.height) = [] := by
          apply List.filter_eq_nil_iff.2
          intro x hx
          have := Int64.le_trans (hA.height_le_of_naming h x hx) hfloor
          simpa using Int64.not_lt.2 this
        rw [if_pos hfloor, hnone]
        rfl
      · obtain ⟨l, hl, hprevious, -⟩ := hr.links_of_naming hA hsplit
        have hcount : ((lo ++ [b]).filter (floor < ·.height)).length =
            (lo.filter (floor < ·.height)).length + 1 := by
          simp [List.filter_append, Int64.not_le.1 hfloor]
        have hle : (lo.filter (floor < ·.height)).length ≤ steps := by omega
        have hrest := ih hsplit hle
        rw [if_neg hfloor, hl]
        simp only [Links.previousOf, hprevious, Option.getD_some, hrest, hcount]
        rfl

theorem effectivePower_eq (hr : r.Keeps A) (hA : A.Sound K) (c : Bytes) (pk : PublicKey) :
    r.effectivePower c pk = .ok (powerOn (A.main c) pk) := by
  rcases hr.findSpan_cases c pk with ⟨hn, hq⟩ | ⟨lo, b, oldest, hn, hm, -, hq⟩
  · rw [Book.naming] at hn
    simp only [effectivePower, hq, powerOn, namingAbove, hn]
    cases (A.main c).getLast? <;> rfl
  · obtain ⟨tip, htip⟩ := Option.ne_none_iff_exists'.1 (fun h =>
      List.ne_nil_of_mem hm (List.getLast?_eq_none_iff.1 h))
    have hbound : 288 ≤ r.historyBound := by
      rw [historyBound, show Consensus.powerWindow.toInt.toNat = 288 by decide]
      omega
    have hlen := (hA.namingAbove_le htip pk).trans hbound
    have hcount := hr.countHistory_eq hA
      (Checked.clampedSub tip.height Consensus.powerWindow) (List.append_nil _).symm hlen
    rw [hn, List.getLast?_concat] at hcount
    simp only [Option.map_some, Option.getD_some] at hcount
    simp only [effectivePower, hq, bind, Except.bind, hr.tip_eq hA, htip, hcount, powerOn,
      namingAbove, ← hn]
    rfl

end Repository.Keeps

end ChainState
