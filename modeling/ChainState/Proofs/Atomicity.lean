import ChainState.Http.Reading
import ChainState.Proofs.Requests

/-!
# A request is done, or nothing is

Between two requests nothing is staged. So a request that fails after it has
staged writes can discard all that is staged, and takes back its own writes
only. What is not answered with success leaves everything as it was, and so
does every read.
-/

set_option autoImplicit false

namespace ChainState

namespace Http

def Response.Succeeds (response : Response) : Prop :=
  200 ≤ response.status ∧ response.status < 300

instance (response : Response) : Decidable response.Succeeds :=
  inferInstanceAs (Decidable (_ ∧ _))

theorem Response.succeeds_done (body : Body) : Response.Succeeds ⟨200, body⟩ :=
  ⟨Nat.le_refl 200, (by decide : 200 < 300)⟩

def Route.Changes : Route → Prop
  | .createChain | .mine _ | .submit => True
  | _ => False

def Route.Reads (found : Option Route) : Prop := ∀ route ∈ found, ¬ route.Changes

namespace Route.Reads

theorem none : Reads none := by
  intro route h
  cases h

theorem some {route : Route} (h : ¬ route.Changes) : Reads (some route) := by
  intro found hfound
  cases hfound
  exact h

theorem ite {p : Prop} [Decidable p] {a b : Option Route} (ha : Reads a) (hb : Reads b) :
    Reads (if p then a else b) := by
  split
  · exact ha
  · exact hb

end Route.Reads

theorem Route.reads_ofSegments? (segment : Bytes → Bytes) (query : Bytes) (path : List Bytes) :
    Reads (ofSegments? segment "GET" query path) := by
  have hpost : ("GET" == "POST") = false := by decide
  unfold ofSegments?
  simp only [hpost, BEq.rfl, if_true, Bool.false_eq_true, if_false, Bool.not_true, and_true]
  refine .ite (.some id) (.ite (.some id) (.ite .none (.ite .none ?_)))
  split
  · exact .ite (.some id) .none
  · refine .ite .none (.ite .none ?_)
    exact .ite (.some id) (.ite (.some id) (.ite (.some id) (.ite (.some id) .none)))
  · exact .ite (.some id) .none
  · exact .none

theorem Route.method_ne_get {reading : Reading} {request : Request} {route : Route}
    (h : ofRequest? reading request = some route) (hroute : route.Changes) :
    request.method ≠ "GET" := by
  intro hget
  simp only [ofRequest?, hget] at h
  split at h
  · split at h
    · exact reads_ofSegments? _ _ _ route h hroute
    · cases h
  · cases h

end Http

section

variable [Crypto]

namespace Repository

structure Unstaged (r : Repository) : Prop where
  bare : r.overlays = []
  writes : r.staged.writes.isEmpty = true
  noted : r.staged.noted = []

structure Untouched (r s : Repository) : Prop where
  values : ∀ k, s.value k = r.value k
  heights : s.store.heights = r.store.heights
  peers : ∀ chain, s.peers chain = r.peers chain

variable {r s : Repository}

theorem unstaged_empty : Unstaged .empty where
  bare := rfl
  writes := by simp [empty, Batch.empty]
  noted := rfl

theorem unstaged_discardChanges (h : r.overlays = []) : r.discardChanges.Unstaged where
  bare := overlays_discardChanges h
  writes := by simp [discardChanges, h, Batch.empty]
  noted := by simp [discardChanges, h, Batch.empty]

namespace Unstaged

theorem isEmpty (h : r.Unstaged) : r.staged.isEmpty = true := by
  simp [Batch.isEmpty, h.writes, h.noted]

theorem value_eq (h : r.Unstaged) (k : Key) : r.value k = lookup k [r.store.records] := by
  rw [value, layers, h.bare]
  exact lookup_none (Std.HashMap.getElem?_of_isEmpty h.writes) _

theorem peers_eq (h : r.Unstaged) (chain : Bytes) :
    r.peers chain = r.store.peers.ofChain chain := by
  rw [peers, h.bare]
  rfl

theorem untouched (hr : r.Unstaged) (hs : s.Unstaged) (h : s.store = r.store) :
    r.Untouched s where
  values k := by rw [hs.value_eq, hr.value_eq, h]
  heights := by rw [h]
  peers chain := by rw [hs.peers_eq, hr.peers_eq, h]

end Unstaged

end Repository

open Repository Transition

variable {ε α β : Type}

/-- Where nothing is staged `t` leaves nothing staged, and it changes the store
only if it succeeds with one of the results that `done` picks out. -/
def Atomic (done : α → Prop) (t : ExceptT ε (StateM Repository) α) : Prop :=
  ∀ r, r.Unstaged → (t.run.run r).2.Unstaged ∧
    ((t.run.run r).2.store = r.store ∨ ∃ x, (t.run.run r).1 = .ok x ∧ done x)

namespace Atomic

variable {done : α → Prop} {t : ExceptT ε (StateM Repository) α}

theorem of_unchanging (h : Unchanging t) : Atomic done t := by
  intro r hr
  rw [h r]
  exact ⟨hr, .inl rfl⟩

theorem of_ok {r s : Repository} {x : α} (ht : Atomic done t) (hr : r.Unstaged)
    (h : t.run.run r = (.ok x, s)) : s.Unstaged ∧ (s.store = r.store ∨ done x) := by
  have hafter := ht r hr
  rw [h] at hafter
  refine ⟨hafter.1, hafter.2.imp id ?_⟩
  rintro ⟨y, hy, hdone⟩
  cases hy
  exact hdone

theorem of_error {r s : Repository} {e : ε} (ht : Atomic done t) (hr : r.Unstaged)
    (h : t.run.run r = (.error e, s)) : s.Unstaged ∧ s.store = r.store := by
  have hafter := ht r hr
  rw [h] at hafter
  refine ⟨hafter.1, hafter.2.resolve_right ?_⟩
  rintro ⟨y, hy, -⟩
  cases hy

theorem congr {ε' : Type} {done' : β → Prop} {u : ExceptT ε' (StateM Repository) β}
    (ht : Atomic done t) (hstate : ∀ r, (u.run.run r).2 = (t.run.run r).2)
    (hresult : ∀ r x, (t.run.run r).1 = .ok x → done x →
      ∃ y, (u.run.run r).1 = .ok y ∧ done' y) : Atomic done' u := by
  intro r hr
  obtain ⟨hs, hstore⟩ := ht r hr
  rw [hstate]
  refine ⟨hs, hstore.imp id ?_⟩
  rintro ⟨x, hx, hdone⟩
  exact hresult r x hx hdone

theorem bind {done : β → Prop} {f : α → ExceptT ε (StateM Repository) β} (ht : Unchanging t)
    (hf : ∀ x, Atomic done (f x)) : Atomic done (t >>= f) := by
  intro r hr
  have hsame := ht r
  rcases h : t.run.run r with ⟨e | x, s⟩
  · obtain rfl : s = r := by rw [← hsame, h]
    rw [run_bind_error h]
    exact ⟨hr, .inl rfl⟩
  · obtain rfl : s = r := by rw [← hsame, h]
    rw [run_bind_ok h]
    exact hf x s hr

theorem answered {done' : β → Prop} {f : α → β} (ht : Atomic done t)
    (hf : ∀ x, done x → done' (f x)) : Atomic done' (t >>= fun x => pure (f x)) := by
  apply ht.congr
  · intro r
    rcases h : t.run.run r with ⟨e | x, s⟩
    · rw [run_bind_error h]
    · rw [run_bind_ok h]
      rfl
  · intro r x hx hdone
    rw [run_bind_ok (Prod.ext hx rfl)]
    exact ⟨f x, rfl, hf x hdone⟩

theorem ofTransition {error : RepositoryError → ε} {t : Transition α} (ht : Atomic done t) :
    Atomic done (Node.ofTransition error t) := by
  apply ht.congr
  · exact fun r => Node.snd_ofTransition
  · intro r x hx hdone
    rw [Node.run_ofTransition_ok (Prod.ext hx rfl)]
    exact ⟨x, rfl, hdone⟩

end Atomic

def MakesDurable (u : ExceptT ε (StateM Repository) Unit) : Prop :=
  ∀ r : Repository, r.overlays = [] → (∃ e, Refuses u r e) ∨
    Ends u r fun _ s => s.Unstaged ∧ (r.Unstaged → s.store = r.store)

theorem MakesDurable.ofTransition {error : RepositoryError → ε} {u : Transition Unit}
    (h : MakesDurable u) : MakesDurable (Node.ofTransition error u) := by
  intro r hr
  obtain ⟨e, he⟩ | hends := h r hr
  · exact .inl ⟨error e, Node.run_ofTransition_error he⟩
  · exact .inr (Node.ends_ofTransition hends)

/-- A change that is made durable, or discarded with all that is staged. A
result that is not `done` comes without a change. -/
theorem Atomic.guarded {done : α → Prop} {t : ExceptT ε (StateM Repository) α}
    {u : ExceptT ε (StateM Repository) Unit} (ht : Local t)
    (hdone : ∀ r x s, t.run.run r = (.ok x, s) → ¬ done x → s = r) (hu : MakesDurable u) :
    Atomic done (do
      try
        let x ← t
        u
        return x
      catch e =>
        modify Repository.discardChanges
        throw e : ExceptT ε (StateM Repository) α) := by
  intro r hr
  obtain ⟨f, hf⟩ := ht r
  -- what is staged when `t` has run was staged by `t`
  have hbare : (t.run.run r).2.overlays = [] := by
    rw [hf]
    exact overlays_amend hr.bare f
  have hback : (t.run.run r).2.discardChanges.Unstaged ∧
      (t.run.run r).2.discardChanges.store = r.store := by
    refine ⟨unstaged_discardChanges hbare, ?_⟩
    rw [hf, discardChanges_amend hr.bare]
    simp [discardChanges, hr.bare]
  rw [run_guarded]
  rcases h : t.run.run r with ⟨_ | x, s⟩
  · rw [h] at hback
    exact ⟨hback.1, .inl hback.2⟩
  · rw [h] at hback hbare
    obtain ⟨e, he⟩ | ⟨_, s', hrun, hs', hsame⟩ := hu s hbare
    · rw [Refuses] at he
      dsimp only
      rw [he]
      exact ⟨hback.1, .inl hback.2⟩
    · dsimp only
      rw [hrun]
      refine ⟨hs', ?_⟩
      by_cases hx : done x
      · exact .inr ⟨x, rfl, hx⟩
      · have hsr := hdone r x s h hx
        rw [hsr] at hsame
        exact .inl (hsame hr)

namespace Http

def Reply.Succeeds : Reply → Prop
  | .response answer => answer.Succeeds
  | .aborted _ => False

instance (reply : Reply) : Decidable reply.Succeeds :=
  match reply with
  | .response answer => inferInstanceAs (Decidable answer.Succeeds)
  | .aborted _ => .isFalse id

theorem Handler.atomic_action {done : α → Prop} {a : Node.Action ε α} {answer : ε → Handler α}
    (ha : Atomic done a) (hanswer : ∀ e, Unchanging (answer e)) :
    Atomic done (action a answer) := by
  apply ha.congr
  · intro r
    rw [run_action]
    cases (a.run.run r).1 with
    | ok x => rfl
    | error e => exact hanswer e _
  · intro r x hx hdone
    rw [run_action, hx]
    exact ⟨x, rfl, hdone⟩

end Http

theorem Repository.unstaged_of_flushStaged {r s : Repository} (hbare : r.overlays = [])
    (h : r.flushStaged = .ok s) : s.Unstaged ∧ (r.Unstaged → s.store = r.store) := by
  by_cases hempty : r.staged.isEmpty = true
  · have hr : r.Unstaged := by
      obtain ⟨hwrites, hnoted⟩ : r.staged.writes.isEmpty = true ∧ r.staged.noted = [] := by
        simpa [Batch.isEmpty] using hempty
      exact ⟨hbare, hwrites, hnoted⟩
    rw [flushStaged, if_pos hempty] at h
    cases h
    exact ⟨hr, fun _ => rfl⟩
  · rw [flushStaged, if_neg hempty] at h
    obtain ⟨statuses, -, hs⟩ := Check.bind_eq_ok.1 h
    cases hs
    exact ⟨⟨hbare, by simp [Batch.empty], rfl⟩, fun hr => absurd hr.isEmpty hempty⟩

theorem makesDurable_flush : MakesDurable flush := by
  intro r hbare
  have hopen : r.handDownAll = r := by
    obtain ⟨store, staged, overlays⟩ := r
    obtain rfl : overlays = [] := hbare
    rfl
  have hfirst : (modify handDownAll : Transition Unit).run.run r = (.ok (), r) :=
    congrArg (Prod.mk _) hopen
  cases h : r.flushStaged with
  | error e =>
    left
    refine ⟨e, ?_⟩
    rw [Refuses, flush, run_bind_ok hfirst, run_bind_error (run_query_error h)]
  | ok s =>
    right
    refine ⟨(), s, ?_, unstaged_of_flushStaged hbare h⟩
    rw [flush, run_bind_ok hfirst, run_bind_ok (run_query_ok h)]
    rfl

namespace Node

theorem atomic_settle {t : Transition Unit} (ht : Local t) : Atomic (fun _ => True) (settle t) :=
  .guarded ht (fun _ _ _ _ h => absurd trivial h) makesDurable_flush

theorem atomic_openChain (miner : Miner) (timestamp balance : Int64) :
    Atomic (fun _ => True) (openChain miner timestamp balance) := by
  apply Atomic.bind fun r => snd_ofTransition.trans (unchanging_query _ r)
  intro tip
  dsimp only
  split
  · exact .of_unchanging (unchanging_throw _)
  · have hsettle := atomic_settle (amends_connectTip (miner.genesis timestamp balance)).toLocal
    exact hsettle.ofTransition.answered fun _ _ => trivial

theorem atomic_mine (miner : Miner) (t : Transaction) (now : Int64) :
    Atomic (fun _ => True) (mine miner t now) := by
  apply Atomic.bind (unchanging_ofCheck _)
  intro block
  have hsettle := atomic_settle (amends_connectTip block).toLocal
  exact hsettle.ofTransition.answered fun _ _ => trivial

theorem eq_of_accept_stale {block : Block} {r s : Repository}
    (h : (accept block).run.run r = (.ok .stale, s)) : s = r := by
  have hends : Ends (accept block) r fun x s' => x = .stale ∧ s' = s := ⟨_, _, h, rfl, rfl⟩
  obtain ⟨placement, _, hrun, hends⟩ := ends_bind.1 hends
  rw [run_ofCheck] at hrun
  obtain ⟨-, rfl⟩ := Prod.mk.inj hrun
  cases placement with
  | stale => exact (ends_pure.1 hends).2.symm
  | extendsTip | extendsTail | fork =>
    obtain ⟨_, _, -, hends⟩ := ends_bind.1 hends
    obtain ⟨_, _, -, hends⟩ := ends_bind.1 hends
    cases (ends_pure.1 hends).1

theorem atomic_submit (block : Block) : Atomic (· ≠ .stale) (submit block) := by
  apply Atomic.guarded (local_accept block) _ makesDurable_flush.ofTransition
  intro r placement s h hstale
  rw [ne_eq, not_not] at hstale
  rw [hstale] at h
  exact eq_of_accept_stale h

end Node

namespace Http

theorem Serves.atomic {route : Route} {answer : Handler Response} (h : Serves route answer) :
    Atomic (fun response => route.Changes ∧ response.Succeeds) answer := by
  cases h with
  | looking h => exact .of_unchanging h
  | opening now miner hbalance =>
    apply (Handler.atomic_action (Node.atomic_openChain _ _ _) _).answered
    · exact fun _ _ => ⟨trivial, Response.succeeds_done _⟩
    · intro e
      cases e <;> exact unchanging_throw _
  | mining now miner t =>
    apply (Handler.atomic_action (Node.atomic_mine _ _ _) _).answered
    · exact fun _ _ => ⟨trivial, Response.succeeds_done _⟩
    · intro e
      split
      · exact unchanging_throw _
      · exact Handler.unchanging_invalid e
  | submitting block =>
    apply (Handler.atomic_action (Node.atomic_submit block) Handler.unchanging_invalid).answered
    intro placement hplacement
    refine ⟨trivial, ?_⟩
    cases placement with
    | stale => exact absurd rfl hplacement
    | extendsTip | extendsTail | fork => exact Response.succeeds_done _

/-- Nothing is staged when a request is done, and the store is the same unless
the request succeeded and was no mere read. -/
theorem Service.handle_atomic {s : Service} (hs : s.repository.Unstaged) (now : Int64)
    (fresh : Seed) (request : Request) :
    (s.handle now fresh request).2.repository.Unstaged ∧
      ((s.handle now fresh request).2.repository.store = s.repository.store ∨
        (s.handle now fresh request).1.Succeeds ∧ request.method ≠ "GET") := by
  unfold Service.handle
  split
  · exact ⟨hs, .inl rfl⟩
  · next route hroute =>
    split
    · exact ⟨hs, .inl rfl⟩
    · next answer hanswer =>
      have hatomic := (serves_handler hanswer).atomic
      split
      · exact ⟨hs, .inl rfl⟩
      · split
        · next hrun =>
          obtain ⟨hr, hstore⟩ := hatomic.of_ok hs hrun
          refine ⟨hr, hstore.imp id ?_⟩
          exact fun h => ⟨h.2, Route.method_ne_get hroute h.1⟩
        · next hrun => exact (hatomic.of_error hs hrun).imp id .inl
        · next hrun => exact (hatomic.of_error hs hrun).imp id .inl

theorem Service.reading_handle (s : Service) (now : Int64) (fresh : Seed) (request : Request) :
    (s.handle now fresh request).2.reading = s.reading := by
  unfold handle
  split
  · rfl
  · split
    · rfl
    · split
      · rfl
      · split <;> rfl

theorem Service.reading_serve (s : Service) (requests : List (Int64 × Seed × Request)) :
    (s.serve requests).reading = s.reading := by
  induction requests generalizing s with
  | nil => rfl
  | cons q rest ih => exact (ih _).trans (s.reading_handle q.1 q.2.1 q.2.2)

theorem Service.refuses_debt {s : Service} {now : Int64} {fresh : Seed} {request : Request}
    {q : OpenRequest} (hroute : Route.ofRequest? s.reading request = some .createChain)
    (hq : s.reading.opening? request = some q) (hdebt : q.balance < 0) :
    ¬ (s.handle now fresh request).1.Succeeds := by
  have hrefused : ∃ reason, handler s.reading now fresh request .createChain =
      .error (.plain 400 reason) := by
    simp only [handler, hq, Parsed.readable, bind, Except.bind, if_pos hdebt, Parsed.chain,
      Parsed.seed]
    cases Hex.decode? (Bytes.ofString q.chain) with
    | none => exact ⟨_, rfl⟩
    | some bytes =>
      cases bytes with
      | nil => exact ⟨_, rfl⟩
      | cons b rest =>
        cases FixedBytes.ofHex (Parsed.trimmed q.secret) with
        | error fault => exact ⟨_, rfl⟩
        | ok seed => exact ⟨_, rfl⟩
  obtain ⟨reason, hrefused⟩ := hrefused
  rw [handle, hroute]
  dsimp only
  rw [hrefused]
  exact fun h => absurd h.2 (by decide : ¬ 400 < 300)

theorem Service.unstaged_serve {s : Service} (hs : s.repository.Unstaged)
    (requests : List (Int64 × Seed × Request)) : (s.serve requests).repository.Unstaged := by
  induction requests generalizing s with
  | nil => exact hs
  | cons q rest ih => exact ih (s.handle_atomic hs q.1 q.2.1 q.2.2).1

/-- A request that comes after any others leaves nothing staged. If it does
not succeed, or is a mere read, it leaves everything as it was. -/
theorem Service.serve_atomic (reading : Reading) (requests : List (Int64 × Seed × Request))
    (now : Int64) (fresh : Seed) (request : Request) :
    let before := (Service.ofRepository reading .empty).serve requests
    let reply := (before.handle now fresh request).1
    let after := (before.handle now fresh request).2
    after.repository.Unstaged ∧
      (¬ reply.Succeeds ∨ request.method = "GET" →
        before.repository.Untouched after.repository) := by
  intro before reply after
  have hbefore : before.repository.Unstaged := unstaged_serve unstaged_empty requests
  obtain ⟨hafter, hstore⟩ := before.handle_atomic hbefore now fresh request
  refine ⟨hafter, fun h => hbefore.untouched hafter ?_⟩
  rcases hstore with hstore | ⟨hsucceeds, hmethod⟩
  · exact hstore
  · rcases h with h | h
    · exact absurd hsucceeds h
    · exact absurd h hmethod

end Http

end

namespace Http

section

attribute [local instance] checksum

def openingRequest (balance : String) : Request where
  method := "POST"
  target := "/api/v1/chains/"
  contentType := some "application/json"
  body := "[\"61\", \"" ++ "01".pushn '0' 62 ++ "\", " ++ balance ++ ", 7]"

def tipRequest : Request := ⟨"GET", "/api/v1/chains/61/tip/", none, ""⟩

/-- A read of the chain that was opened, and a second opening that is refused
for its balance. -/
theorem Service.serve_atomic_opening :
    let before := (Service.ofRepository .standard .empty).serve
      [(0, .ofBytes [], openingRequest "5")]
    let read := before.handle 1 (.ofBytes []) tipRequest
    let refused := before.handle 1 (.ofBytes []) (openingRequest "-5")
    (tipRequest.method = "GET" ∧ read.2.repository.Unstaged ∧
      before.repository.Untouched read.2.repository) ∧
    (¬ refused.1.Succeeds ∧ refused.2.repository.Unstaged ∧
      before.repository.Untouched refused.2.repository) := by
  intro before read refused
  have hread :=
    serve_atomic .standard [(0, .ofBytes [], openingRequest "5")] 1 (.ofBytes []) tipRequest
  have hrefused := serve_atomic .standard [(0, .ofBytes [], openingRequest "5")] 1 (.ofBytes [])
    (openingRequest "-5")
  have hreading : before.reading = .standard := Service.reading_serve _ _
  obtain ⟨q, hq, hdebt⟩ :
      ∃ q, Reading.standard.opening? (openingRequest "-5") = some q ∧ q.balance = -5 :=
    Option.map_eq_some_iff.1 (by decide +kernel)
  have hfails : ¬ refused.1.Succeeds :=
    Service.refuses_debt (by rw [hreading]; decide +kernel) (by rw [hreading, hq])
      (by rw [hdebt]; decide)
  exact ⟨⟨rfl, hread.1, hread.2 (.inr rfl)⟩, hfails, hrefused.1, hrefused.2 (.inl hfails)⟩

end

end Http

end ChainState
