import ChainState.Proofs.Disconnect
import ChainState.Proofs.Effects

/-!
# Histories of calls

A repository is changed by calls that connect, roll back, expire, store,
delete and prune, with any arguments and in any order, and a call that is
refused leaves it as it was. So whatever the history, the repository keeps a
sound book: the one that the same calls make of the empty book.
-/

set_option autoImplicit false

namespace ChainState

/-- A checksum in the place of the digest, and a signature that names its seed:
primitives that are quick to evaluate. -/
abbrev checksum : Crypto where
  digest message :=
    .ofBytes (Bytes.littleEndian 32 (message.foldl (fun n b => 257 * n + b.toNat + 1) 0))
  publicKey seed := .ofBytes seed.bytes
  sign seed message := .ofBytes (seed.bytes ++ message.take 32)
  verify key message signature := signature == .ofBytes (key.bytes ++ message.take 32)

variable [Crypto]

inductive ChainCall where
  | connectTip (block : Block)
  | connectTail (block : Block)
  | rollBack (block : Block)
  | expire (block : Block)
  | saveFork (block : Block)
  | deleteBlock (hash : Hash)
  | pruneOrphans (chain : Bytes) (height : Int64) (removed : List Hash)

namespace ChainCall

def block? : ChainCall → Option Block
  | .connectTip b | .connectTail b | .rollBack b | .expire b | .saveFork b => some b
  | .deleteBlock _ | .pruneOrphans _ _ _ => none

def transition : ChainCall → Transition Unit
  | .connectTip b => Transition.connectTip b
  | .connectTail b => Transition.connectTail b
  | .rollBack b => Transition.rollBack b
  | .expire b => Transition.expire b
  | .saveFork b => Transition.saveFork b
  | .deleteBlock hash => Transition.deleteBlock hash
  | .pruneOrphans chain height removed =>
    discard (Transition.pruneOrphans chain height removed)

def notes : ChainCall → List Block
  | .connectTip b | .connectTail b | .rollBack b | .expire b => [b]
  | .saveFork _ | .deleteBlock _ | .pruneOrphans _ _ _ => []

theorem amends_transition (call : ChainCall) : Transition.Amends call.notes call.transition := by
  cases call with
  | connectTip b => exact Transition.amends_connectTip b
  | connectTail b => exact Transition.amends_connectTail b
  | rollBack b => exact Transition.amends_rollBack b
  | expire b => exact Transition.amends_expire b
  | saveFork b => exact Transition.amends_saveFork b
  | deleteBlock hash => exact Transition.amends_deleteBlock hash
  | pruneOrphans chain height removed =>
    exact Transition.amends_discard (Transition.amends_pruneOrphans chain height removed)

/-- The repository after a call, whether it succeeded or failed. -/
def perform (r : Repository) (call : ChainCall) : Repository := (call.transition.run.run r).2

/-- The repository after a history of calls. -/
def run (calls : List ChainCall) : Repository := calls.foldl perform .empty

end ChainCall

/-- Blocks whose byte strings fit in memory, and among which a hash names one
encoding. No hash is the zero hash, which stands for no block. -/
structure Admissible (blocks : List Block) : Prop where
  sized : ∀ b ∈ blocks, b.Sized
  hash_ne_zero : ∀ b ∈ blocks, b.hash ≠ .zero
  hash_inj : ∀ a ∈ blocks, ∀ b ∈ blocks, a.hash = b.hash → a.encode = b.encode

instance (blocks : List Block) : Decidable (Admissible blocks) :=
  decidable_of_iff ((∀ b ∈ blocks, b.Sized) ∧ (∀ b ∈ blocks, b.hash ≠ .zero) ∧
      ∀ a ∈ blocks, ∀ b ∈ blocks, a.hash = b.hash → a.encode = b.encode)
    ⟨fun ⟨hsized, hzero, hinj⟩ => ⟨hsized, hzero, hinj⟩,
      fun h => ⟨h.sized, h.hash_ne_zero, h.hash_inj⟩⟩

theorem Admissible.mono {blocks blocks' : List Block} (h : Admissible blocks)
    (hsub : blocks' ⊆ blocks) : Admissible blocks' where
  sized b hb := h.sized b (hsub hb)
  hash_ne_zero b hb := h.hash_ne_zero b (hsub hb)
  hash_inj a ha b hb := h.hash_inj a (hsub ha) b (hsub hb)

def Admissible.registry {blocks : List Block} (h : Admissible blocks) : Registry where
  known b := ∃ a ∈ blocks, a.stored = b
  sized := by
    rintro _ ⟨a, ha, rfl⟩
    exact Block.sized_stored (h.sized a ha)
  stored := by
    rintro _ ⟨a, _, rfl⟩
    exact a.stored_stored
  hash_ne_zero := by
    rintro _ ⟨a, ha, rfl⟩
    rw [Block.hash_stored]
    exact h.hash_ne_zero a ha
  hash_inj := by
    rintro _ _ ⟨a, ha, rfl⟩ ⟨b, hb, rfl⟩ he
    rw [Block.hash_stored, Block.hash_stored] at he
    exact Block.stored_eq_of_encode_eq (h.sized a ha) (h.sized b hb) (h.hash_inj a ha b hb he)

/-- The book after a call. A call that is refused leaves it as it is. -/
def Book.after (A : Book) : ChainCall → Book
  | .connectTip b => if A.TakesTip b then A.pushTip b.stored else A
  | .connectTail b => if A.TakesTail b then A.pushTail b.stored else A
  | .rollBack b => if (A.main b.chain).getLast? = some b.stored then A.popTip b.stored else A
  | .expire b => if (A.main b.chain).head? = some b.stored then A.expire b.stored else A
  | .saveFork b => A.addFork b.stored
  | .deleteBlock hash =>
    A.dropForks fun f => ∃ b, A.fork b ∧ b.hash = hash ∧ Descends (A.forksOf b.chain) b f
  | .pruneOrphans chain height removed =>
    A.dropForks (Orphan (A.forksOf chain) height removed)

namespace ChainCall

open Transition

def book (calls : List ChainCall) : Book := calls.foldl Book.after .empty

variable {K : Registry} {A : Book} {r : Repository}

theorem after_deleteBlock (hA : A.Sound K) {b : Block} (hb : A.fork b) :
    A.after (.deleteBlock b.hash) = A.dropForks (Descends (A.forksOf b.chain) b) := by
  have hgone : (fun f => ∃ a, A.fork a ∧ a.hash = b.hash ∧ Descends (A.forksOf a.chain) a f) =
      Descends (A.forksOf b.chain) b := by
    funext f
    refine propext ⟨?_, fun h => ⟨b, hb, rfl, h⟩⟩
    rintro ⟨a, ha, he, h⟩
    obtain rfl := K.hash_inj a b (hA.fork_known a ha) (hA.fork_known b hb) he
    exact h
  rw [Book.after, hgone]

theorem after_deleteBlock_of_none {hash : Hash} (h : ∀ b, A.fork b → b.hash ≠ hash) :
    A.after (.deleteBlock hash) = A := by
  apply Book.dropForks_of_none
  rintro f ⟨b, hb, he, -⟩
  exact h b hb he

/-- One call takes a sound book to a sound book, and the repository with it. -/
theorem perform_keeps (hA : A.Sound K) (hr : r.Keeps A) (call : ChainCall)
    (hcall : ∀ b, call.block? = some b → K.known b.stored) :
    (A.after call).Sound K ∧ (perform r call).Keeps (A.after call) := by
  have refused {e : RepositoryError} (h : Refuses call.transition r e)
      (hsame : A.after call = A) :
      (A.after call).Sound K ∧ (perform r call).Keeps (A.after call) := by
    rw [hsame, perform, h.snd]
    exact ⟨hA, hr⟩
  cases call with
  | connectTip b =>
    have hb := hcall b rfl
    by_cases h : A.TakesTip b
    · rw [Book.after, if_pos h]
      exact ⟨Book.sound_pushTip hA hb (Book.takesTip_stored.2 h),
        (ends_connectTip hA hr hb h).snd⟩
    · obtain ⟨fault, hf⟩ := refuses_connectTip hA hr h
      exact refused hf (if_neg h)
  | connectTail b =>
    have hb := hcall b rfl
    by_cases h : A.TakesTail b
    · rw [Book.after, if_pos h]
      exact ⟨Book.sound_pushTail hA hb (Book.takesTail_stored.2 h),
        (ends_connectTail hA hr hb h).snd⟩
    · obtain ⟨fault, hf⟩ := refuses_connectTail hA hr h
      exact refused hf (if_neg h)
  | rollBack b =>
    by_cases h : (A.main b.chain).getLast? = some b.stored
    · rw [Book.after, if_pos h]
      exact ⟨Book.sound_popTip hA (by simpa using h), (ends_rollBack hA hr h).snd⟩
    · exact refused (refuses_rollBack hA hr (hcall b rfl) h) (if_neg h)
  | expire b =>
    by_cases h : (A.main b.chain).head? = some b.stored
    · rw [Book.after, if_pos h]
      exact ⟨Book.sound_dropForks (Book.sound_popTail hA (by simpa using h)) _,
        (ends_expire hA hr h).snd⟩
    · exact refused (refuses_expire hA hr (hcall b rfl) h) (if_neg h)
  | saveFork b =>
    exact ⟨Book.sound_addFork hA (hcall b rfl), (ends_saveFork hA hr (hcall b rfl)).snd⟩
  | deleteBlock hash =>
    rcases hr.findBlock_cases hA hash with ⟨b, hb | hb, rfl, -⟩ | ⟨hx, -⟩
    · refine refused (refuses_deleteBlock hA hr hb) (after_deleteBlock_of_none fun f hf => ?_)
      exact (hA.hash_ne_of_fork hb hf).symm
    · rw [after_deleteBlock hA hb]
      exact ⟨Book.sound_dropForks hA _, (ends_deleteBlock hA hr hb).snd⟩
    · have h : perform r (.deleteBlock hash) = r := (ends_deleteBlock_unknown hr hx).snd
      rw [h, after_deleteBlock_of_none fun f hf => hx f (.inr hf)]
      exact ⟨hA, hr⟩
  | pruneOrphans chain height removed =>
    exact ⟨Book.sound_dropForks hA _,
      (ends_discard.2 (ends_prune hA hr chain height removed)).snd⟩

/-- A history takes the empty book to the book that the repository keeps. -/
theorem run_keeps (calls : List ChainCall)
    (hcalls : ∀ call ∈ calls, ∀ b, call.block? = some b → K.known b.stored) :
    (book calls).Sound K ∧ (run calls).Keeps (book calls) := by
  suffices ∀ (A : Book) (r : Repository), A.Sound K → r.Keeps A →
      (calls.foldl Book.after A).Sound K ∧
        (calls.foldl perform r).Keeps (calls.foldl Book.after A) from
    this _ _ (Book.sound_empty K) Repository.keeps_empty
  induction calls with
  | nil => exact fun _ _ hA hr => ⟨hA, hr⟩
  | cons call calls ih =>
    intro A r hA hr
    obtain ⟨hA', hr'⟩ := perform_keeps hA hr call (hcalls call (by simp))
    exact ih (fun c hc => hcalls c (by simp [hc])) _ _ hA' hr'

theorem keeps_book {calls : List ChainCall} (h : Admissible (calls.filterMap block?)) :
    (book calls).Sound h.registry ∧ (run calls).Keeps (book calls) :=
  run_keeps calls fun call hc b hb => ⟨b, List.mem_filterMap.2 ⟨call, hc, hb⟩, rfl⟩

theorem keeps_of_admissible {calls : List ChainCall} (h : Admissible (calls.filterMap block?)) :
    ∃ B : Book, B.Sound h.registry ∧ (run calls).Keeps B :=
  ⟨book calls, keeps_book h⟩

theorem keeps_beside {calls : List ChainCall} {b : Block}
    (h : Admissible (b::calls.filterMap block?)) :
    (book calls).Sound h.registry ∧ (run calls).Keeps (book calls) ∧
      h.registry.known b.stored := by
  have hknown : ∀ call ∈ calls, ∀ x, call.block? = some x → h.registry.known x.stored :=
    fun call hc x hx => ⟨x, List.mem_cons_of_mem _ (List.mem_filterMap.2 ⟨call, hc, hx⟩), rfl⟩
  obtain ⟨hA, hr⟩ := run_keeps calls hknown
  exact ⟨hA, hr, b, by simp, rfl⟩

end ChainCall

def ChainCall.connects? : ChainCall → Option Block
  | .connectTip b | .connectTail b => some b
  | _ => none

def ChainCall.disconnects? : ChainCall → Option Block
  | .rollBack b | .expire b => some b
  | _ => none

theorem ChainCall.notes_of_connects {call : ChainCall} {b : Block}
    (h : call.connects? = some b) : call.notes = [b] := by
  cases call <;> simp_all [connects?, notes]

theorem ChainCall.notes_of_disconnects {call : ChainCall} {b : Block}
    (h : call.disconnects? = some b) : call.notes = [b] := by
  cases call <;> simp_all [disconnects?, notes]

namespace Book

inductive Moved (A B : Book) : ChainCall → Prop
  | still {call : ChainCall} (h : B.main = A.main) : Moved A B call
  | onto {call : ChainCall} {b : Block} (hb : call.connects? = some b) (h : A.Adds B b.stored) :
      Moved A B call
  | off {call : ChainCall} {b : Block} (hb : call.disconnects? = some b) (h : B.Adds A b.stored) :
      Moved A B call

theorem moved_after (A : Book) (call : ChainCall) : A.Moved (A.after call) call := by
  cases call with
  | connectTip b =>
    rw [after]
    split
    · exact .onto rfl (gains_pushTip A b.stored).adds
    · exact .still rfl
  | connectTail b =>
    rw [after]
    split
    · exact .onto rfl (gains_pushTail A b.stored).adds
    · exact .still rfl
  | rollBack b =>
    rw [after]
    split
    · next h => exact .off rfl (adds_popTip (by simpa using h))
    · exact .still rfl
  | expire b =>
    rw [after]
    split
    · -- The forks that expire with the tail lie beside the best chains.
      next h => exact .off rfl (adds_popTail (by simpa using h))
    · exact .still rfl
  | saveFork b | deleteBlock hash | pruneOrphans chain height removed => exact .still rfl

end Book

namespace Book

/-- Every chain id that has a best chain is listed. -/
def Enlists (A : Book) : Prop := ∀ c, A.main c ≠ [] → A.chains.contains c = true

theorem Enlists.mono {A A' : Book} (h : A.Enlists) (hchains : A'.chains = A.chains)
    (hm : ∀ c, A.main c = [] → A'.main c = []) : A'.Enlists := fun c hc =>
  hchains ▸ h c (mt (hm c) hc)

theorem Enlists.after {A : Book} (h : A.Enlists) (call : ChainCall) : (A.after call).Enlists := by
  cases call with
  | connectTip b =>
    rw [Book.after]
    split
    · intro c hc
      by_cases he : c = b.chain
      · simp [pushTip, he]
      · simp only [main_pushTip, Block.chain_stored, he, if_false] at hc
        simp [pushTip, h c hc]
    · exact h
  | connectTail b =>
    rw [Book.after]
    split
    · next ht =>
      -- Only a best chain that there is has a tail to connect below.
      obtain ⟨t, ht, -⟩ := ht
      refine h.mono rfl fun c hc => ?_
      have he : c ≠ b.chain := fun e =>
        List.ne_nil_of_mem (List.mem_of_mem_head? ht) (e ▸ hc)
      simp [he, hc]
    · exact h
  | rollBack b =>
    rw [Book.after]
    split
    · refine h.mono rfl fun c hc => ?_
      by_cases he : c = b.chain
      · subst he
        simp [hc]
      · simp [he, hc]
    · exact h
  | expire b =>
    rw [Book.after]
    split
    · refine h.mono rfl fun c hc => ?_
      change (A.popTail b.stored).main c = []
      by_cases he : c = b.chain
      · subst he
        simp [hc]
      · simp [he, hc]
    · exact h
  | saveFork b => exact h
  | deleteBlock hash => exact h
  | pruneOrphans chain height removed => exact h

theorem enlists_book (calls : List ChainCall) : (ChainCall.book calls).Enlists :=
  List.foldlRecOn calls Book.after (fun _ hc => absurd rfl hc) fun _ hA call _ => hA.after call

end Book

def ChainCall.Connects (chain : Bytes) : ChainCall → Prop
  | .connectTip b | .connectTail b => b.chain = chain
  | _ => False

namespace Book

structure Plain (A : Book) : Prop where
  forkless : ∀ f, ¬ A.fork f
  chains : ∀ c, A.chains.contains c = true ↔ A.main c ≠ []

variable {A B : Book}

theorem Plain.eq (hA : A.Plain) (hB : B.Plain) (hm : B.main = A.main) : B = A := by
  refine Book.ext hm (funext fun f => propext ?_) (SortedSet.eq_of_contains fun c => ?_)
  · exact iff_of_false (hB.forkless f) (hA.forkless f)
  · rw [Bool.eq_iff_iff, hA.chains, hB.chains, hm]

theorem plain_empty : Book.empty.Plain where
  forkless _ h := h
  chains c := by simp [Book.empty]

theorem Plain.after {chain : Bytes} {call : ChainCall} (h : A.Plain)
    (hc : call.Connects chain) : (A.after call).Plain := by
  cases call with
  | connectTip b =>
    rw [Book.after]
    split
    · refine ⟨fun f hf => h.forkless f hf.1, fun c => ?_⟩
      by_cases hcb : c = b.chain <;> simp [pushTip, hcb, h.chains]
    · exact h
  | connectTail b =>
    rw [Book.after]
    split
    · next ht =>
      obtain ⟨t, ht, -⟩ := ht
      refine ⟨fun f hf => h.forkless f hf.1, fun c => (h.chains c).trans ?_⟩
      by_cases hcb : c = b.chain
      · simp [hcb, List.ne_nil_of_mem (List.mem_of_mem_head? ht)]
      · simp [hcb]
    · exact h
  | _ => exact hc.elim

theorem main_after_of_connects (A : Book) {chain c : Bytes} {call : ChainCall}
    (hcall : call.Connects chain) (hc : c ≠ chain) : (A.after call).main c = A.main c := by
  cases call with
  | connectTip b =>
    obtain rfl : b.chain = chain := hcall
    rw [Book.after]
    split
    · simp [hc]
    · rfl
  | connectTail b =>
    obtain rfl : b.chain = chain := hcall
    rw [Book.after]
    split
    · simp [hc]
    · rfl
  | _ => exact hcall.elim

theorem plain_book {chain : Bytes} {calls : List ChainCall}
    (h : ∀ call ∈ calls, call.Connects chain) :
    (ChainCall.book calls).Plain ∧ ∀ c, c ≠ chain → (ChainCall.book calls).main c = [] := by
  have hstart : Book.empty.Plain ∧ ∀ c, c ≠ chain → Book.empty.main c = [] :=
    ⟨plain_empty, fun _ _ => rfl⟩
  refine List.foldlRecOn (motive := fun A => A.Plain ∧ ∀ c, c ≠ chain → A.main c = []) calls
    Book.after hstart fun A hA call hcall => ?_
  refine ⟨hA.1.after (h call hcall), fun c hc => ?_⟩
  rw [A.main_after_of_connects (h call hcall) hc, hA.2 c hc]

end Book

end ChainState
