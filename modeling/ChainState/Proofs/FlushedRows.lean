import ChainState.Proofs.Convergence
import ChainState.Proofs.HeightRows
import ChainState.Proofs.NodeHistory
import ChainState.Proofs.Sessions

/-!
# Rows as of the last flush

Between two flushes the best chains may move in any way, in sessions that are
committed or dropped, and the rows of the height index stay as they are. Each
layer notes what it changes. So what is abandoned takes its notes with it, what
is handed down brings them along, and a flush finds noted whatever its rows
have missed.
-/

set_option autoImplicit false

namespace ChainState

section

variable [Crypto]

inductive StoreCall where
  | step (call : BranchCall)
  | changePeers (change : PeerChange)
  | track
  | untrack
  | commit
  | rollBack
  | flush

namespace StoreCall

def blocks : StoreCall → List Block
  | .step call => call.blocks
  | _ => []

def flushes (r : Repository) : StoreCall → Bool
  | .flush => true
  | .commit => r.overlays.isEmpty
  | _ => false

def perform (r : Repository) : StoreCall → Repository
  | .step call => call.perform r
  | .changePeers change => r.changePeers change
  | .track => r.track
  | .untrack => r.untrack
  | .commit => (Transition.commit.run.run r).2
  | .rollBack => r.discardChanges
  | .flush => (Transition.flush.run.run r).2

def run (calls : List StoreCall) : Repository := calls.foldl perform .empty

/-- What the last of the calls that flushes leaves, if they are made on `r`;
and `flushed` if none does. -/
def flushedFrom : Repository → Repository → List StoreCall → Repository
  | _, flushed, [] => flushed
  | r, flushed, call::calls =>
    flushedFrom (call.perform r) (if call.flushes r then call.perform r else flushed) calls

def lastFlush (calls : List StoreCall) : Repository := flushedFrom .empty .empty calls

theorem flushedFrom_concat (r flushed : Repository) (calls : List StoreCall) (call : StoreCall) :
    flushedFrom r flushed (calls ++ [call]) =
      if call.flushes (calls.foldl perform r) then call.perform (calls.foldl perform r)
      else flushedFrom r flushed calls := by
  induction calls generalizing r flushed with
  | nil => rfl
  | cons first rest ih => exact ih _ _

theorem run_concat (calls : List StoreCall) (call : StoreCall) :
    run (calls ++ [call]) = call.perform (run calls) := by
  rw [run, List.foldl_append]
  rfl

theorem lastFlush_concat (calls : List StoreCall) (call : StoreCall) :
    lastFlush (calls ++ [call]) =
      if call.flushes (run calls) then call.perform (run calls) else lastFlush calls :=
  flushedFrom_concat .empty .empty calls call

end StoreCall

variable {K : Registry} {A B D : Book} {r s d : Repository}

open Transition
open Batch (Additive)

structure Durable (K : Registry) (D : Book) (store : Store) : Prop where
  sound : D.Sound K
  keeps : Repository.Keeps ⟨store, .empty, []⟩ D
  rows : ∀ c n, HeightIndex.row store.heights c n = D.hashAt c n

theorem durable_empty (K : Registry) : Durable K .empty .empty where
  sound := Book.sound_empty K
  keeps := Repository.keeps_empty
  rows c n := by simp [HeightIndex.row, HeightIndex.ofChain, Store.empty, Book.hashAt,
    Book.mainAt, Book.empty]

theorem Durable.heightRows_eq (h : Durable K D r.store) (c : Bytes) :
    r.heightRows c = (D.main c).map fun b => (b.height, b.hash) :=
  h.sound.entries_eq fun n => h.rows c n

structure Current (K : Registry) (D : Book) (r : Repository) : Prop where
  keeps : r.Keeps D
  durable : Durable K D r.store

theorem Current.range_eq (h : Current K D r) (c : Bytes) (start : Int64) (limit : Nat) :
    r.range c start limit = .ok (((D.main c).filter (start ≤ ·.height)).take limit) :=
  r.range_eq (h.keeps.spine h.durable.sound c).stored (h.durable.heightRows_eq c) start limit

/-- The repository keeps `A` above the durable `D`, and each of its layers has
noted what is different on the best chains from the layer below. -/
inductive Notes (K : Registry) (D : Book) : Repository → Book → Prop
  | bare {store : Store} {staged : Batch} {A : Book} (hA : A.Sound K)
      (hr : Repository.Keeps ⟨store, staged, []⟩ A) (hnoted : Book.Covers staged.noted D A) :
      Notes K D ⟨store, staged, []⟩ A
  | covered {store : Store} {staged : Batch} {top : Overlay} {below : List Overlay} {A B : Book}
      (lower : Notes K D ⟨store, staged, below⟩ B) (hA : A.Sound K)
      (hr : Repository.Keeps ⟨store, staged, top::below⟩ A)
      (hnoted : Book.Covers top.batch.noted B A) : Notes K D ⟨store, staged, top::below⟩ A

namespace Notes

theorem sound (h : Notes K D r A) : A.Sound K := by
  cases h <;> assumption

theorem keeps (h : Notes K D r A) : r.Keeps A := by
  cases h <;> assumption

theorem amend (h : Notes K D r A) {f : Batch → Batch} (hf : Additive f) (hB : B.Sound K)
    (hr : (r.amend f).Keeps B) (hnoted : Book.Covers (f .empty).noted A B) :
    Notes K D (r.amend f) B := by
  have hadded (b : Batch) : (f b).noted = b.noted ++ (f .empty).noted := (hf b).noted
  cases h with
  | bare _ _ hbelow =>
    refine .bare hB hr ?_
    rw [hadded]
    exact hbelow.trans hnoted
  | covered lower _ _ hbelow =>
    refine .covered lower hB hr ?_
    rw [hadded]
    exact hbelow.trans hnoted

theorem track (h : Notes K D r A) : Notes K D r.track A :=
  .covered h h.sound (h.keeps.congr r.value_track) (Book.covers_of_eq _ rfl)

theorem changePeers (h : Notes K D r A) (change : PeerChange) :
    Notes K D (r.changePeers change) A := by
  have hr := h.keeps.congr (r.value_changePeers change)
  cases h with
  | bare hA _ hnoted => exact .bare hA hr hnoted
  | covered lower hA _ hnoted => exact .covered lower hA hr hnoted

/-- All that the layers have noted together is what is different from the
durable book. -/
theorem covers_all (h : Notes K D r A) : Book.Covers r.handDownAll.staged.noted D A := by
  induction h with
  | bare _ _ hnoted => exact hnoted
  | @covered store staged top below A B _ _ _ hnoted ih =>
    have hstaged : (Repository.handDownAll ⟨store, staged, top::below⟩).staged.noted =
        (Repository.handDownAll ⟨store, staged, below⟩).staged.noted ++ top.batch.noted := by
      simp [Repository.handDownAll, Batch.append]
    rw [hstaged]
    exact ih.trans hnoted

theorem opened {store : Store} {staged : Batch} (hA : A.Sound K)
    (hr : Repository.Keeps ⟨store, staged, []⟩ A) (overlays : List Overlay) :
    Notes K A ⟨store, staged, overlays.map fun _ => .empty⟩ A := by
  induction overlays with
  | nil => exact .bare hA hr (Book.covers_of_eq _ rfl)
  | cons top rest ih => exact ih.track

end Notes

/-- The rows are those of `D`, and what they lack is noted. -/
structure Reconcilable (K : Registry) (D : Book) (r : Repository) : Prop where
  durable : Durable K D r.store
  notes : ∃ A, Notes K D r A

namespace Reconcilable

theorem track (h : Reconcilable K D r) : Reconcilable K D r.track where
  durable := h.durable
  notes := by
    obtain ⟨A, hA⟩ := h.notes
    exact ⟨A, hA.track⟩

theorem untrack (h : Reconcilable K D r) : Reconcilable K D r.untrack where
  durable := h.durable
  notes := by
    obtain ⟨A, hA⟩ := h.notes
    cases hA with
    | bare hA hr hnoted => exact ⟨A, .bare hA hr hnoted⟩
    | covered lower _ _ _ => exact ⟨_, lower⟩

theorem discardChanges (h : Reconcilable K D r) : Reconcilable K D r.discardChanges := by
  obtain ⟨store, staged, overlays⟩ := r
  cases overlays with
  | nil =>
    exact ⟨h.durable, D, .bare h.durable.sound h.durable.keeps (Book.covers_of_eq _ rfl)⟩
  | cons top below => exact h.untrack.track

theorem changePeers (h : Reconcilable K D r) (change : PeerChange) :
    Reconcilable K D (r.changePeers change) where
  durable := by
    obtain ⟨store, staged, overlays⟩ := r
    cases overlays with
    | nil => exact ⟨h.durable.sound, h.durable.keeps.congr fun _ => rfl, h.durable.rows⟩
    | cons top below => exact h.durable
  notes := by
    obtain ⟨A, hA⟩ := h.notes
    exact ⟨A, hA.changePeers change⟩

theorem foldl_changePeers (h : Reconcilable K D r) (changes : List PeerChange) :
    Reconcilable K D (changes.foldl Repository.changePeers r) :=
  List.foldlRecOn changes Repository.changePeers h fun _ hs change _ => hs.changePeers change

theorem close (h : Reconcilable K D r) : Reconcilable K D r.close := by
  obtain ⟨A, hA⟩ := h.notes
  cases hA with
  | bare => exact h
  | @covered store staged top below A B lower hA hr hnoted =>
    rw [Repository.close_cons]
    apply foldl_changePeers
    refine ⟨?_, A, ?_⟩
    · rw [Repository.store_amend]
      exact h.durable
    · refine lower.amend (Batch.additive_append top.batch) hA (hr.congr fun k => ?_) hnoted
      rw [← Repository.value_close, Repository.close_cons, Repository.value_foldl_changePeers]

end Reconcilable

namespace Book

theorem Adds.covers {b : Block} (h : A.Adds B b.stored) : Covers [b] A B := by
  intro c x hdiffer
  rw [List.map_singleton, List.mem_singleton]
  by_contra hne
  exact hdiffer (by simp [h c x, hne])

theorem covers_after (A : Book) (call : ChainCall) : Covers call.notes A (A.after call) := by
  cases A.moved_after call with
  | still h => exact covers_of_eq _ h
  | onto hb h =>
    rw [ChainCall.notes_of_connects hb]
    exact h.covers
  | off hb h =>
    rw [ChainCall.notes_of_disconnects hb]
    exact h.covers.symm

end Book

namespace ChainCall

theorem main_after_of_error (hA : A.Sound K) (hr : r.Keeps A) (call : ChainCall)
    (hcall : ∀ b, call.block? = some b → K.known b.stored) {e : RepositoryError}
    (h : call.transition.run.run r = (.error e, s)) : (A.after call).main = A.main := by
  have hfails {post : Unit → Repository → Prop} (hends : Ends call.transition r post) : False := by
    obtain ⟨x, u, hrun, -⟩ := hends
    cases h.symm.trans hrun
  cases call with
  | connectTip b =>
    rw [Book.after, if_neg fun ht => hfails (ends_connectTip hA hr (hcall b rfl) ht)]
  | connectTail b =>
    rw [Book.after, if_neg fun ht => hfails (ends_connectTail hA hr (hcall b rfl) ht)]
  | rollBack b => rw [Book.after, if_neg fun ht => hfails (ends_rollBack hA hr ht)]
  | expire b => rw [Book.after, if_neg fun ht => hfails (ends_expire hA hr ht)]
  | _ => rfl

theorem perform_notes (hA : A.Sound K) (hr : r.Keeps A) (call : ChainCall)
    (hcall : ∀ b, call.block? = some b → K.known b.stored) :
    ∃ f, Additive f ∧ perform r call = r.amend f ∧
      Book.Covers (f .empty).noted A (A.after call) := by
  obtain ⟨x, f, hf, hnoted, hrun⟩ := call.amends_transition r
  have hrun := hrun r fun _ => rfl
  refine ⟨f, hf, congrArg Prod.snd hrun, ?_⟩
  rw [hnoted]
  cases x with
  | ok _ => exact A.covers_after call
  | error e => exact Book.covers_of_eq _ (main_after_of_error hA hr call hcall hrun)

end ChainCall

namespace Reconcilable

theorem move (h : Reconcilable K D r) (call : ChainCall)
    (hcall : ∀ b, call.block? = some b → K.known b.stored) :
    Reconcilable K D (call.perform r) := by
  obtain ⟨A, hnotes⟩ := h.notes
  obtain ⟨hA', hr'⟩ := ChainCall.perform_keeps hnotes.sound hnotes.keeps call hcall
  obtain ⟨f, hf, hperform, hnoted⟩ :=
    ChainCall.perform_notes hnotes.sound hnotes.keeps call hcall
  rw [hperform] at hr' ⊢
  refine ⟨?_, A.after call, hnotes.amend hf hA' hr' hnoted⟩
  rw [Repository.store_amend]
  exact h.durable

end Reconcilable

namespace Branch

theorem leaves_rollBackTo (forkPoint : Hash) (steps : Nat) (cursor : Block)
    (h : Reconcilable K D r) (hcursor : K.known cursor.stored) :
    Leaves (rollBackTo forkPoint steps cursor) r (Reconcilable K D) := by
  induction steps generalizing r cursor with
  | zero => exact h
  | succ steps ih =>
    rw [rollBackTo]
    split
    · exact h
    · have hroll : Leaves (rollBack cursor) r (Reconcilable K D) :=
        h.move (.rollBack cursor) fun b hb => Option.some.inj hb ▸ hcursor
      apply (Node.leaves_ofTransition hroll).bind
      intro _ s hs
      cases hq : s.namedBlock cursor.parent with
      | error e =>
        have hrun : (transition (query (·.namedBlock cursor.parent))).run.run s =
            (.error (.repository e), s) := Node.run_ofTransition_error (run_query_error hq)
        rw [Leaves, run_bind_error hrun]
        exact hs
      | ok parent =>
        have hrun : (transition (query (·.namedBlock cursor.parent))).run.run s =
            (.ok parent, s) := Node.run_ofTransition_ok (run_query_ok hq)
        obtain ⟨A, hA⟩ := hs.notes
        rw [Leaves, run_bind_ok hrun]
        exact ih parent hs (hA.keeps.known_of_namedBlock hA.sound hq)

theorem leaves_extend {b : Block} (h : Reconcilable K D r) (hb : K.known b.stored) :
    Leaves (extend b) r (Reconcilable K D) := by
  rw [Leaves, run_extend]
  cases validateBlock r b with
  | ok _ =>
    have hconnect : Leaves (connectTip b) r (Reconcilable K D) :=
      h.move (.connectTip b) fun x hx => Option.some.inj hx ▸ hb
    exact Node.leaves_ofTransition hconnect
  | error e => exact h

theorem leaves_rebase {tip : Block} (forkPoint : Hash) (branch : List Block)
    (h : Reconcilable K D r) (htip : K.known tip.stored)
    (hknown : ∀ b ∈ branch, K.known b.stored) :
    Leaves (rebase tip forkPoint branch) r (Reconcilable K D) := by
  rw [Leaves, run_rebase]
  apply (leaves_rollBackTo forkPoint _ tip h htip).bind
  intro _ s hs
  induction branch generalizing s with
  | nil => exact hs
  | cons b rest ih =>
    apply (leaves_extend hs (hknown b (by simp))).bind
    exact fun _ u hu => ih (fun x hx => hknown x (by simp [hx])) u hu

end Branch

namespace Reconcilable

theorem switch (h : Reconcilable K D r) {branch : List Block}
    (hknown : ∀ b ∈ branch, K.known b.stored) :
    Reconcilable K D (BranchCall.perform r (.switch branch)) := by
  rw [BranchCall.perform]
  by_cases hs : (Branch.switch r branch).1 = .ok .switched
  · obtain ⟨A, hA⟩ := h.notes
    obtain ⟨first, rest, tip, rfl, hfork, he⟩ := Branch.eq_of_switch_switched hs
    obtain ⟨lo, fork, hi, hm, -, htip, -⟩ :=
      (Branch.checkForkPoint_eq_ok hA.sound hA.keeps).1 hfork
    have hmem := hA.sound.known _ tip (List.mem_of_getLast? htip)
    have htip : K.known tip.stored := by rwa [K.stored tip hmem]
    rw [he]
    exact (Branch.leaves_rebase first.parent _ h.track htip hknown).close
  · rwa [Branch.snd_switch_of_ne hs]

theorem step (h : Reconcilable K D r) (call : BranchCall)
    (hcall : ∀ b ∈ call.blocks, K.known b.stored) : Reconcilable K D (call.perform r) := by
  cases call with
  | move call => exact h.move call fun b hb => hcall b (by simp [BranchCall.blocks, hb])
  | switch branch => exact h.switch hcall

end Reconcilable

theorem Reconcilable.ends_flush (h : Reconcilable K D r) :
    Ends flush r fun _ s => ∃ A, Reconcilable K A s ∧ Current K A s := by
  obtain ⟨A, hnotes⟩ := h.notes
  refine (hnotes.keeps.ends_flush_all hnotes.sound).mono fun _ s hs => ⟨A, ?_⟩
  have hkeeps : s.Keeps A :=
    hnotes.keeps.congr fun k => (hs.value k).trans (r.value_handDownAll k)
  have hdisk : Repository.Keeps ⟨s.store, .empty, []⟩ A := by
    refine hnotes.keeps.congr fun k => (lookup_none (by simp [Batch.empty]) _).trans ?_
    exact (hs.records k).trans (Repository.lookup_handDownAll r.store r.staged r.overlays k)
  have hpending : HeightIndex.Pending r.handDownAll.staged.noted r.store.heights A.hashAt :=
    hnotes.covers_all.pending h.durable.sound hnotes.sound h.durable.rows
  have hrows : ∀ c n, HeightIndex.row s.store.heights c n = A.hashAt c n := by
    intro c n
    rw [hs.heights]
    exact hpending.foldl_indexBlock c n
  have hdurable : Durable K A s.store := ⟨hnotes.sound, hdisk, hrows⟩
  refine ⟨⟨hdurable, A, ?_⟩, hkeeps, hdurable⟩
  obtain ⟨store, staged, overlays⟩ := s
  obtain rfl : overlays = r.overlays.map fun _ => .empty := hs.overlays
  refine .opened hnotes.sound (hdisk.congr fun k => ?_) r.overlays
  exact (lookup_none (hs.writes k) _).trans (lookup_none (by simp [Batch.empty]) _).symm

namespace StoreCall

/-- One call keeps the rows as they were at the last flush, or is a flush. -/
theorem perform_reconcilable (h : Reconcilable K D r) (hd : Current K D d) (call : StoreCall)
    (hcall : ∀ b ∈ call.blocks, K.known b.stored) :
    ∃ A, Reconcilable K A (call.perform r) ∧
      Current K A (if call.flushes r then call.perform r else d) := by
  cases call with
  | step call => exact ⟨D, h.step call hcall, hd⟩
  | changePeers change => exact ⟨D, h.changePeers change, hd⟩
  | track => exact ⟨D, h.track, hd⟩
  | untrack => exact ⟨D, h.untrack, hd⟩
  | commit =>
    obtain ⟨store, staged, overlays⟩ := r
    cases overlays with
    | nil => exact h.ends_flush.snd
    | cons top below => exact ⟨D, h.close.track, hd⟩
  | rollBack => exact ⟨D, h.discardChanges, hd⟩
  | flush => exact h.ends_flush.snd

theorem run_reconcilable (calls : List StoreCall)
    (hcalls : ∀ b ∈ calls.flatMap blocks, K.known b.stored) :
    ∃ D, Reconcilable K D (run calls) ∧ Current K D (lastFlush calls) := by
  induction calls using List.reverseRecOn with
  | nil =>
    have hnotes : Notes K .empty .empty .empty :=
      .bare (Book.sound_empty K) Repository.keeps_empty (Book.covers_of_eq _ rfl)
    exact ⟨.empty, ⟨durable_empty K, .empty, hnotes⟩, Repository.keeps_empty, durable_empty K⟩
  | append_singleton calls call ih =>
    rw [List.flatMap_append] at hcalls
    obtain ⟨D, hrun, hflush⟩ := ih fun b hb => hcalls b (List.mem_append_left _ hb)
    rw [run_concat, lastFlush_concat]
    exact perform_reconcilable hrun hflush call fun b hb => hcalls b (by simp [hb])

/-- Whatever has been done since the last flush, the rows of a chain are those
of its best chain as the flush left it, each height with its hash. Right after
that flush a range of the rows gave the blocks themselves, in the order of
their heights. And a flush may come at any time: it does not fail, and keeps
every value. -/
theorem run_heightRows {calls : List StoreCall} (h : Admissible (calls.flatMap blocks))
    (chain : Bytes) :
    (∃ main, Spine (lastFlush calls) chain main ∧
      (run calls).heightRows chain = main.map (fun b => (b.height, b.hash)) ∧
      ∀ start limit, (lastFlush calls).range chain start limit =
        .ok ((main.filter (start ≤ ·.height)).take limit)) ∧
    ∃ s, Transition.flush.run.run (run calls) = (.ok (), s) ∧
      ∀ k, s.value k = (run calls).value k := by
  obtain ⟨D, hrun, hflush⟩ :=
    run_reconcilable (K := h.registry) calls fun b hb => ⟨b, hb, rfl⟩
  have hspine := hflush.keeps.spine hflush.durable.sound chain
  obtain ⟨A, hnotes⟩ := hrun.notes
  obtain ⟨_, s, hs, hflushed⟩ := hnotes.keeps.ends_flush_all hnotes.sound
  have hrows := hrun.durable.heightRows_eq chain
  refine ⟨⟨D.main chain, hspine, hrows, hflush.range_eq chain⟩, s, hs, ?_⟩
  exact fun k => (hflushed.value k).trans ((run calls).value_handDownAll k)

end StoreCall

end

section

attribute [local instance] checksum

/-- A block is connected and flushed, and another in a session left open. -/
def sessionCalls : List StoreCall :=
  [.step (.move (.connectTip firstBlock)), .flush, .track, .step (.move (.connectTip secondBlock))]

theorem admissible_sessionCalls : Admissible (sessionCalls.flatMap StoreCall.blocks) :=
  admissible_pair.mono (by simp [sessionCalls, StoreCall.blocks, BranchCall.blocks,
    ChainCall.block?])

theorem spine_sessionCalls :
    Spine (StoreCall.lastFlush sessionCalls) [0x61] [firstBlock.stored] ∧
    Spine (StoreCall.run sessionCalls) [0x61] [firstBlock.stored, secondBlock.stored] := by
  have hfirst : admissible_pair.registry.known firstBlock.stored := ⟨firstBlock, by simp, rfl⟩
  have hsecond : admissible_pair.registry.known secondBlock.stored := ⟨secondBlock, by simp, rfl⟩
  obtain ⟨hA, hr⟩ := ChainCall.run_keeps [.connectTip firstBlock] (by
    simp only [List.mem_singleton, forall_eq]
    rintro _ ⟨⟩
    exact hfirst)
  obtain ⟨_, s, hs, hflushed⟩ := hr.ends_flush_all hA
  have hlast : StoreCall.lastFlush sessionCalls = s := congrArg Prod.snd hs
  have hkeeps := hr.congr fun k =>
    (hflushed.value k).trans ((ChainCall.run [.connectTip firstBlock]).value_handDownAll k)
  have hrun : StoreCall.run sessionCalls = ChainCall.perform s.track (.connectTip secondBlock) :=
    hlast ▸ rfl
  obtain ⟨hA', hr'⟩ := ChainCall.perform_keeps hA (hkeeps.congr s.value_track)
    (.connectTip secondBlock) (by
      rintro _ ⟨⟩
      exact hsecond)
  have hbelow : (ChainCall.book [.connectTip firstBlock]).main [0x61] = [firstBlock.stored] := by
    decide +kernel
  have habove : ((ChainCall.book [.connectTip firstBlock]).after (.connectTip secondBlock)).main
      [0x61] = [firstBlock.stored, secondBlock.stored] := by decide +kernel
  rw [hlast, hrun]
  exact ⟨hbelow ▸ hkeeps.spine hA [0x61], habove ▸ hr'.spine hA' [0x61]⟩

/-- The session has moved the tip, and the rows do not show it yet. -/
theorem StoreCall.run_heightRows_session : Admissible (sessionCalls.flatMap blocks) ∧
    (run sessionCalls).tipHash [0x61] = .ok (some secondBlock.hash) ∧
    (run sessionCalls).heightRows [0x61] = [(0, firstBlock.hash)] ∧
    (lastFlush sessionCalls).range [0x61] 0 5 = .ok [firstBlock.stored] ∧
    ∃ s, Transition.flush.run.run (run sessionCalls) = (.ok (), s) ∧
      ∀ k, s.value k = (run sessionCalls).value k := by
  have hfirst : (firstBlock.stored.height, firstBlock.stored.hash) = (0, firstBlock.hash) := by
    decide +kernel
  have hsecond : secondBlock.stored.hash = secondBlock.hash := by decide +kernel
  obtain ⟨⟨main, hspine, hrows, hrange⟩, hflush⟩ := run_heightRows admissible_sessionCalls [0x61]
  obtain rfl := spine_sessionCalls.1.unique hspine
  refine ⟨admissible_sessionCalls, hsecond ▸ spine_sessionCalls.2.tip, ?_, ?_, hflush⟩
  · rw [hrows, List.map_singleton, hfirst]
  · rw [hrange]
    exact congrArg Except.ok (by decide +kernel)

end

end ChainState
