import ChainState.Proofs.History

/-!
# Sessions are what would have run directly

A session is an overlay in which any calls are made, and further sessions are
opened, committed, rolled back and dropped. Reads in it find what they would
find if the calls that are still pending had been made on the backing
repository, those of the outermost session first. A commit does to the backing
repository what these calls would have done, and a session that is dropped or
rolled back leaves it alone.

What is pending in the innermost session is judged by closing it, with a commit
and without. So the simulation looks at one overlay at a time, whatever the
depth.
-/

set_option autoImplicit false

namespace ChainState

open Batch (Additive)

variable [Crypto]

namespace Repository

inductive Alike : Repository → Repository → Prop
  | bare {store : Store} {a b : Batch} (h : a.Alike b) : Alike ⟨store, a, []⟩ ⟨store, b, []⟩
  | covered {store : Store} {staged a b : Batch} {changes : List PeerChange}
      {below : List Overlay} (h : a.Alike b) :
      Alike ⟨store, staged, ⟨a, changes⟩::below⟩ ⟨store, staged, ⟨b, changes⟩::below⟩

def noted (r : Repository) : List Block :=
  match r.overlays with
  | [] => r.staged.noted
  | top::_ => top.batch.noted

def close (r : Repository) : Repository := r.handDown.untrack

variable {r d : Repository}

namespace Alike

theorem refl (r : Repository) : r.Alike r := by
  obtain ⟨store, staged, overlays⟩ := r
  cases overlays with
  | nil => exact .bare (.refl _)
  | cons top below => exact .covered (.refl _)

theorem trans {s : Repository} (h : r.Alike d) (h' : d.Alike s) : r.Alike s := by
  cases h with
  | bare h =>
    cases h' with
    | bare h' => exact .bare (h.trans h')
  | covered h =>
    cases h' with
    | covered h' => exact .covered (h.trans h')

theorem value (h : r.Alike d) (k : Key) : r.value k = d.value k := by
  cases h with
  | bare h => simp only [Repository.value, layers, lookup, List.map_nil, List.nil_append, h.writes]
  | covered h =>
    simp only [Repository.value, layers, lookup, List.map_cons, List.cons_append, h.writes]

theorem noted (h : r.Alike d) : r.noted = d.noted := by
  cases h with
  | bare h => exact h.noted
  | covered h => exact h.noted

theorem peers (h : r.Alike d) (chain : Bytes) : r.peers chain = d.peers chain := by
  cases h with
  | bare h => rfl
  | covered h => simp only [Repository.peers, List.reverse_cons, List.flatMap_append,
      List.flatMap_cons, List.flatMap_nil]

theorem amend (h : r.Alike d) {f : Batch → Batch} (hf : Additive f) :
    (r.amend f).Alike (d.amend f) := by
  have happend {a b : Batch} (hab : a.Alike b) : (f a).Alike (f b) :=
    (hf a).trans ((hab.append (.refl _)).trans (hf b).symm)
  cases h with
  | bare h => exact .bare (happend h)
  | covered h => exact .covered (happend h)

theorem changePeers (h : r.Alike d) (change : PeerChange) :
    (r.changePeers change).Alike (d.changePeers change) := by
  cases h with
  | bare h => exact .bare h
  | covered h => exact .covered h

end Alike

theorem alike_amend (r : Repository) {f g : Batch → Batch} (h : ∀ b, (f b).Alike (g b)) :
    (r.amend f).Alike (r.amend g) := by
  obtain ⟨store, staged, overlays⟩ := r
  cases overlays with
  | nil => exact .bare (h _)
  | cons top below => exact .covered (h _)

theorem amend_changePeers (r : Repository) (f : Batch → Batch) (change : PeerChange) :
    (r.changePeers change).amend f = (r.amend f).changePeers change := by
  obtain ⟨store, staged, overlays⟩ := r
  cases overlays <;> rfl

theorem amend_foldl_changePeers (r : Repository) (f : Batch → Batch)
    (changes : List PeerChange) :
    (changes.foldl Repository.changePeers r).amend f =
      changes.foldl Repository.changePeers (r.amend f) := by
  induction changes generalizing r with
  | nil => rfl
  | cons change changes ih => rw [List.foldl_cons, ih, amend_changePeers, List.foldl_cons]

theorem alike_foldl_changePeers (h : r.Alike d) (changes : List PeerChange) :
    (changes.foldl Repository.changePeers r).Alike
      (changes.foldl Repository.changePeers d) := by
  induction changes generalizing r d with
  | nil => exact h
  | cons change changes ih => exact ih (h.changePeers change)

theorem value_changePeers (r : Repository) (change : PeerChange) (k : Key) :
    (r.changePeers change).value k = r.value k := by
  obtain ⟨store, staged, overlays⟩ := r
  cases overlays <;> rfl

theorem value_foldl_changePeers (r : Repository) (changes : List PeerChange) (k : Key) :
    (changes.foldl Repository.changePeers r).value k = r.value k := by
  induction changes generalizing r with
  | nil => rfl
  | cons change changes ih => rw [List.foldl_cons, ih, value_changePeers]

def peerBook (r : Repository) : PeerBook :=
  (r.overlays.reverse.flatMap (·.peerChanges)).foldl PeerBook.apply r.store.peers

theorem peerBook_changePeers (r : Repository) (change : PeerChange) :
    (r.changePeers change).peerBook = PeerBook.apply r.peerBook change := by
  obtain ⟨store, staged, overlays⟩ := r
  cases overlays with
  | nil => rfl
  | cons top below =>
    simp [Repository.changePeers, peerBook, List.flatMap_append, List.foldl_append]

theorem peerBook_foldl_changePeers (r : Repository) (changes : List PeerChange) :
    (changes.foldl Repository.changePeers r).peerBook =
      changes.foldl PeerBook.apply r.peerBook := by
  induction changes generalizing r with
  | nil => rfl
  | cons change changes ih => rw [List.foldl_cons, ih, peerBook_changePeers, List.foldl_cons]

section

variable (store : Store) (staged : Batch) (top : Overlay) (below : List Overlay)

theorem close_cons : close ⟨store, staged, top::below⟩ =
    top.peerChanges.foldl Repository.changePeers
      ((⟨store, staged, below⟩ : Repository).amend (·.append top.batch)) :=
  rfl

theorem value_close (k : Key) :
    (close ⟨store, staged, top::below⟩).value k =
      (⟨store, staged, top::below⟩ : Repository).value k := by
  rw [close_cons, value_foldl_changePeers]
  cases below <;> exact lookup_union k _ _ _

theorem peers_close (chain : Bytes) :
    (close ⟨store, staged, top::below⟩).peers chain =
      (⟨store, staged, top::below⟩ : Repository).peers chain := by
  have hbook : (close ⟨store, staged, top::below⟩).peerBook =
      peerBook ⟨store, staged, top::below⟩ := by
    rw [close_cons, peerBook_foldl_changePeers]
    cases below <;> simp [peerBook, Repository.amend, List.flatMap_append, List.foldl_append]
  exact congrArg (PeerBook.ofChain · chain) hbook

theorem close_amend {f : Batch → Batch} (hf : Additive f) :
    (close ((⟨store, staged, top::below⟩ : Repository).amend f)).Alike
      ((close ⟨store, staged, top::below⟩).amend f) := by
  rw [close_cons, amend_foldl_changePeers, amend_amend]
  show (close ⟨store, staged, ⟨f top.batch, top.peerChanges⟩::below⟩).Alike _
  rw [close_cons]
  refine alike_foldl_changePeers (alike_amend _ fun b => ?_) _
  have hleft : (b.append (f top.batch)).Alike (b.append (top.batch.append (f .empty))) :=
    (Batch.Alike.refl b).append (hf _)
  have hright : (f (b.append top.batch)).Alike ((b.append top.batch).append (f .empty)) := hf _
  exact hleft.trans ((Batch.append_assoc_alike _ _ _).symm.trans hright.symm)

theorem close_changePeers (change : PeerChange) :
    close ((⟨store, staged, top::below⟩ : Repository).changePeers change) =
      (close ⟨store, staged, top::below⟩).changePeers change := by
  show close ⟨store, staged, ⟨top.batch, top.peerChanges ++ [change]⟩::below⟩ = _
  rw [close_cons, close_cons, List.foldl_append]
  rfl

end

theorem close_track (r : Repository) : r.track.close.Alike r := by
  obtain ⟨store, staged, overlays⟩ := r
  rw [track, close_cons]
  cases overlays with
  | nil => exact .bare (Batch.append_empty_alike _)
  | cons top below => exact .covered (Batch.append_empty_alike _)

theorem Alike.close {store : Store} {staged a b : Batch} {changes : List PeerChange}
    {below : List Overlay} (h : a.Alike b) :
    (Repository.close ⟨store, staged, ⟨a, changes⟩::below⟩).Alike
      (Repository.close ⟨store, staged, ⟨b, changes⟩::below⟩) := by
  rw [close_cons, close_cons]
  exact alike_foldl_changePeers (alike_amend _ fun x => (Batch.Alike.refl x).append h) _

end Repository

inductive RepositoryCall where
  | put (k : Key) (value : Bytes)
  | delete (k : Key)
  | note (block : Block)
  | addChain (chain : Bytes)
  | move (call : ChainCall)
  | changePeers (change : PeerChange)

/-- What is done in a session, with so many further sessions open in it at the
end. -/
inductive Script : Nat → Type
  | start : Script 0
  | act {n : Nat} (script : Script n) (call : RepositoryCall) : Script n
  | nest {n : Nat} (script : Script n) : Script (n + 1)
  | commit {n : Nat} (script : Script n) : Script n
  | rollBack {n : Nat} (script : Script n) : Script n
  | drop {n : Nat} (script : Script (n + 1)) : Script n

namespace Script

variable {n : Nat}

/-- The calls that are pending in the innermost session, and those that have
reached what lies below: the sessions around it from the inside out, and at
last the backing repository. -/
def calls {n : Nat} : Script n → List RepositoryCall × List (List RepositoryCall)
  | start => ([], [[]])
  | act script call => (script.calls.1 ++ [call], script.calls.2)
  | nest script => ([], script.calls.1::script.calls.2)
  | commit script => ([], script.calls.2.modifyHead (· ++ script.calls.1))
  | rollBack script => ([], script.calls.2)
  | drop script => (script.calls.2.headD [], script.calls.2.tail)

def pending (script : Script n) : List RepositoryCall := script.calls.1

def kept (script : Script n) : List RepositoryCall := script.calls.2.reverse.flatten

example (a b c d : RepositoryCall) :
    ((((Script.start.act a).nest.act b).commit.act c).drop.act d).pending = [a, b, d] :=
  rfl

theorem length_calls (script : Script n) : script.calls.2.length = n + 1 := by
  induction script with
  | start => rfl
  | act script call ih => exact ih
  | nest script ih => simp [calls, ih]
  | commit script ih => simp [calls, ih]
  | rollBack script ih => exact ih
  | drop script ih => simp [calls, ih]

/-- There is always something below the innermost session. -/
theorem exists_outer (script : Script n) :
    ∃ outer rest, script.calls.2 = outer::rest := by
  apply List.exists_cons_of_length_eq_add_one
  exact script.length_calls

theorem kept_commit (script : Script 0) : script.commit.kept = script.kept ++ script.pending := by
  obtain ⟨outer, hcalls⟩ := List.length_eq_one_iff.1 script.length_calls
  simp [kept, pending, calls, hcalls]

end Script

namespace RepositoryCall

def transition : RepositoryCall → Transition Unit
  | .put k value => Transition.put k value
  | .delete k => Transition.delete k
  | .note block => Transition.note block
  | .addChain chain => Transition.addChain chain
  | .move call => call.transition
  | .changePeers change => modify (·.changePeers change)

def perform (r : Repository) (call : RepositoryCall) : Repository :=
  (call.transition.run.run r).2

def answer (r : Repository) (call : RepositoryCall) : Except RepositoryError Unit :=
  (call.transition.run.run r).1

def performAll (r : Repository) (calls : List RepositoryCall) : Repository :=
  calls.foldl perform r

theorem effect (call : RepositoryCall) :
    (∃ change, ∀ r : Repository, call.transition.run.run r = (.ok (), r.changePeers change)) ∨
      ∃ blocks, Transition.Amends blocks call.transition := by
  cases call with
  | put k value => exact .inr ⟨_, Transition.amends_put k value⟩
  | delete k => exact .inr ⟨_, Transition.amends_delete k⟩
  | note block => exact .inr ⟨_, Transition.amends_note block⟩
  | addChain chain => exact .inr ⟨_, Transition.amends_addChain chain⟩
  | move call => exact .inr ⟨_, call.amends_transition⟩
  | changePeers change => exact .inl ⟨change, fun _ => rfl⟩

variable {r d : Repository}

theorem answer_congr (h : ∀ k, r.value k = d.value k) (call : RepositoryCall) :
    call.answer r = call.answer d := by
  rcases call.effect with ⟨change, hrun⟩ | ⟨blocks, hamends⟩
  · rw [answer, hrun, answer, hrun]
  · obtain ⟨x, f, -, -, hrun⟩ := hamends d
    rw [answer, hrun r h, answer, hrun d fun _ => rfl]

theorem perform_alike (h : r.Alike d) (call : RepositoryCall) :
    (call.perform r).Alike (call.perform d) := by
  rcases call.effect with ⟨change, hrun⟩ | ⟨blocks, hamends⟩
  · rw [perform, hrun, perform, hrun]
    exact h.changePeers change
  · obtain ⟨x, f, hf, -, hrun⟩ := hamends d
    rw [perform, hrun r h.value, perform, hrun d fun _ => rfl]
    exact h.amend hf

section

variable (store : Store) (staged : Batch) (top : Overlay) (below : List Overlay)

theorem perform_cons (call : RepositoryCall) :
    ∃ top', call.perform ⟨store, staged, top::below⟩ = ⟨store, staged, top'::below⟩ := by
  rcases call.effect with ⟨change, hrun⟩ | ⟨blocks, hamends⟩
  · exact ⟨_, by rw [perform, hrun]; rfl⟩
  · obtain ⟨x, f, -, -, hrun⟩ := hamends ⟨store, staged, top::below⟩
    exact ⟨_, by rw [perform, hrun _ fun _ => rfl]; rfl⟩

/-- A call in an overlay, and then a commit, is the commit and then the call. -/
theorem close_perform (call : RepositoryCall) :
    (call.perform ⟨store, staged, top::below⟩).close.Alike
      (call.perform (Repository.close ⟨store, staged, top::below⟩)) := by
  rcases call.effect with ⟨change, hrun⟩ | ⟨blocks, hamends⟩
  · rw [perform, hrun, perform, hrun, Repository.close_changePeers]
    exact .refl _
  · obtain ⟨x, f, hf, -, hrun⟩ := hamends ⟨store, staged, top::below⟩
    rw [perform, hrun _ fun _ => rfl, perform,
      hrun _ (Repository.value_close store staged top below)]
    exact Repository.close_amend store staged top below hf

end

end RepositoryCall

open RepositoryCall (performAll)

def Script.run (r : Repository) {n : Nat} : Script n → Repository
  | .start => r.track
  | .act script call => call.perform (run r script)
  | .nest script => (run r script).track
  | .commit script => (Transition.commit.run.run (run r script)).2
  | .rollBack script => (run r script).discardChanges
  | .drop script => (run r script).untrack

/-- `s` has an overlay for each list but the last. When its overlays are closed
one after the other, each with a commit or without, what is left is what the
calls of the sessions committed would have made of `r`. -/
def Mirrors (r : Repository) :
    List RepositoryCall → List (List RepositoryCall) → Repository → Prop
  | pending, [], s => s.Alike (performAll r pending)
  | pending, outer::rest, s =>
    s.overlays ≠ [] ∧ Mirrors r outer rest s.untrack ∧ Mirrors r (outer ++ pending) rest s.close

namespace Mirrors

variable {r s s' : Repository} {pending outer : List RepositoryCall}
  {rest : List (List RepositoryCall)}

theorem congr (h : Mirrors r pending rest s) (hs : s'.Alike s) : Mirrors r pending rest s' := by
  induction rest generalizing pending s s' with
  | nil => exact Repository.Alike.trans hs h
  | cons outer rest ih =>
    obtain ⟨hopen, hdropped, hclosed⟩ := h
    cases hs with
    | bare hs => exact absurd rfl hopen
    | covered hs => exact ⟨List.cons_ne_nil _ _, hdropped, ih hclosed (.close hs)⟩

theorem perform (h : Mirrors r pending rest s) (call : RepositoryCall) :
    Mirrors r (pending ++ [call]) rest (call.perform s) := by
  induction rest generalizing pending s with
  | nil =>
    rw [Mirrors, performAll, List.foldl_append]
    exact RepositoryCall.perform_alike h call
  | cons outer rest ih =>
    obtain ⟨store, staged, overlays⟩ := s
    obtain ⟨hopen, hdropped, hclosed⟩ := h
    cases overlays with
    | nil => exact absurd rfl hopen
    | cons top below =>
      have hperform := ih hclosed
      rw [List.append_assoc] at hperform
      have hclose := hperform.congr (RepositoryCall.close_perform store staged top below call)
      obtain ⟨top', htop⟩ := RepositoryCall.perform_cons store staged top below call
      rw [htop] at hclose ⊢
      exact ⟨List.cons_ne_nil _ _, hdropped, hclose⟩

theorem track (h : Mirrors r pending rest s) : Mirrors r [] (pending::rest) s.track := by
  refine ⟨List.cons_ne_nil _ _, h, ?_⟩
  rw [List.append_nil]
  exact h.congr s.close_track

theorem commit (h : Mirrors r pending (outer::rest) s) :
    Mirrors r [] ((outer ++ pending)::rest) (Transition.commit.run.run s).2 := by
  obtain ⟨store, staged, overlays⟩ := s
  obtain ⟨hopen, -, hclosed⟩ := h
  cases overlays with
  | nil => exact absurd rfl hopen
  | cons top below => exact hclosed.track

theorem discardChanges (h : Mirrors r pending (outer::rest) s) :
    Mirrors r [] (outer::rest) s.discardChanges := by
  obtain ⟨store, staged, overlays⟩ := s
  obtain ⟨hopen, hdropped, -⟩ := h
  cases overlays with
  | nil => exact absurd rfl hopen
  | cons top below => exact hdropped.track

theorem reads (h : Mirrors r pending rest s) :
    (∀ k, s.value k = (performAll r (rest.reverse.flatten ++ pending)).value k) ∧
      ∀ chain, s.peers chain = (performAll r (rest.reverse.flatten ++ pending)).peers chain := by
  induction rest generalizing pending s with
  | nil => exact ⟨h.value, h.peers⟩
  | cons outer rest ih =>
    obtain ⟨store, staged, overlays⟩ := s
    obtain ⟨hopen, -, hclosed⟩ := h
    cases overlays with
    | nil => exact absurd rfl hopen
    | cons top below =>
      obtain ⟨hvalue, hpeers⟩ := ih hclosed
      have hcalls : (outer::rest).reverse.flatten ++ pending =
          rest.reverse.flatten ++ (outer ++ pending) := by simp
      rw [hcalls]
      constructor
      · intro k
        rw [← Repository.value_close, hvalue k]
      · intro chain
        rw [← Repository.peers_close, hpeers chain]

end Mirrors

namespace Script

variable {n : Nat}

theorem mirrors (r : Repository) (script : Script n) :
    Mirrors r script.pending script.calls.2 (script.run r) := by
  induction script with
  | start => exact Mirrors.track (show Mirrors r [] [] r from .refl r)
  | act script call ih => exact ih.perform call
  | nest script ih => exact ih.track
  | commit script ih =>
    obtain ⟨outer, rest, hcalls⟩ := script.exists_outer
    rw [hcalls] at ih
    have hcommit := ih.commit
    rw [pending, run, calls, hcalls]
    exact hcommit
  | rollBack script ih =>
    obtain ⟨outer, rest, hcalls⟩ := script.exists_outer
    rw [hcalls] at ih
    rw [pending, run, calls, hcalls]
    exact ih.discardChanges
  | drop script ih =>
    obtain ⟨outer, rest, hcalls⟩ := script.exists_outer
    rw [hcalls] at ih
    rw [pending, run, calls, hcalls]
    exact ih.2.1

end Script

/-- No read tells the two apart: no value, no peers, and no answer to a call. -/
structure SameReads (a b : Repository) : Prop where
  value : ∀ k, a.value k = b.value k
  peers : ∀ chain, a.peers chain = b.peers chain
  answer : ∀ call : RepositoryCall, call.answer a = call.answer b

/-- The two hold the same values and peers, and have noted the same blocks in
the same order. -/
structure SameContents (a b : Repository) : Prop where
  value : ∀ k, a.value k = b.value k
  noted : a.noted = b.noted
  peers : ∀ chain, a.peers chain = b.peers chain

theorem Repository.Alike.sameContents {a b : Repository} (h : a.Alike b) : SameContents a b :=
  ⟨h.value, h.noted, h.peers⟩

namespace Script

theorem untrack_alike (r : Repository) (script : Script 0) :
    (script.run r).untrack.Alike (performAll r script.kept) := by
  obtain ⟨outer, hcalls⟩ := List.length_eq_one_iff.1 script.length_calls
  have hmirrors := script.mirrors r
  rw [hcalls] at hmirrors
  have hkept : script.kept = outer := by simp [kept, hcalls]
  rw [hkept]
  exact hmirrors.2.1

/-- Sessions on any repository, with any calls and to any depth. Reads in the
innermost session are those that the repository would give if the calls of all
sessions that were not abandoned had been made on it directly. A commit of the
outermost session does to the repository what these calls would have done. A
rollback, or its end without a commit, leaves what it had committed before; if
that is nothing, all is as it was. -/
theorem refines_direct (r : Repository) :
    (∀ n (script : Script n),
      SameReads (script.run r) (performAll r (script.kept ++ script.pending))) ∧
    ∀ script : Script 0,
      SameContents (script.commit.run r).untrack
        (performAll r (script.kept ++ script.pending)) ∧
      SameContents (script.rollBack.run r).untrack (performAll r script.kept) ∧
      SameContents (script.run r).untrack (performAll r script.kept) ∧
      (script.kept = [] → SameContents (script.rollBack.run r).untrack r ∧
        SameContents (script.run r).untrack r) := by
  constructor
  · intro n script
    obtain ⟨hvalue, hpeers⟩ := (script.mirrors r).reads
    exact ⟨hvalue, hpeers, RepositoryCall.answer_congr hvalue⟩
  · intro script
    have hdropped := (script.untrack_alike r).sameContents
    have hrolled := (script.rollBack.untrack_alike r).sameContents
    have hcommitted := (script.commit.untrack_alike r).sameContents
    rw [kept_commit] at hcommitted
    refine ⟨hcommitted, hrolled, hdropped, fun hnone => ?_⟩
    rw [hnone] at hdropped
    exact ⟨by rwa [show script.rollBack.kept = [] from hnone] at hrolled, hdropped⟩

end Script

end ChainState
