import ChainState.Http.Service
import ChainState.Proofs.NodeHistory

/-!
# What requests do to a repository

A request changes the repository through the node alone: it opens a chain,
mines, or submits a block. It opens no chain with a negative balance.
-/

set_option autoImplicit false

namespace ChainState

variable [Crypto]

/-- The call is one that the interface lets through. A request to open a chain
with a negative balance is refused before it comes to a call. -/
def NodeCall.Offered : NodeCall → Prop
  | .openChain _ _ balance => 0 ≤ balance
  | _ => True

instance (call : NodeCall) : Decidable call.Offered :=
  match call with
  | .openChain _ _ balance => inferInstanceAs (Decidable (0 ≤ balance))
  | .mine .. | .accept .. | .submit .. | .switch .. | .flush => .isTrue trivial

theorem Http.Handler.run_action {ε α : Type} (a : Node.Action ε α) (answer : ε → Handler α)
    (r : Repository) : (action a answer).run.run r =
      match (a.run.run r).1 with
      | .ok x => (.ok x, (a.run.run r).2)
      | .error e => (answer e).run.run (a.run.run r).2 := by
  rw [action, Transition.run_get_bind]
  cases h : a.run.run r with
  | mk x s => cases x <;> rfl

/-- Calls that are let through lead from `r` to `s`. -/
def Reached (r s : Repository) : Prop :=
  ∃ calls : List NodeCall, (∀ call ∈ calls, call.Offered) ∧ calls.foldl NodeCall.perform r = s

namespace Reached

variable {r s u : Repository}

theorem refl (r : Repository) : Reached r r := ⟨[], by simp, rfl⟩

theorem trans (h : Reached r s) (h' : Reached s u) : Reached r u := by
  obtain ⟨calls, hcalls, rfl⟩ := h
  obtain ⟨more, hmore, rfl⟩ := h'
  refine ⟨calls ++ more, ?_, List.foldl_append⟩
  intro call hcall
  rcases List.mem_append.1 hcall with hcall | hcall
  · exact hcalls call hcall
  · exact hmore call hcall

theorem perform {call : NodeCall} (h : call.Offered) (r : Repository) :
    Reached r (call.perform r) :=
  ⟨[call], by simpa using h, rfl⟩

end Reached

namespace Http

open Transition

namespace Handler

variable {α : Type}

theorem unchanging_query (q : Repository → Query α) : Unchanging (query q) := by
  intro r
  rw [query, run_get_bind]
  cases q r <;> rfl

theorem unchanging_invalid (e : ValidationError) : Unchanging (invalid e : Handler α) := by
  cases e <;> exact unchanging_throw _

end Handler

theorem unchanging_blockOrNotFound (found : Option Block) : Unchanging (blockOrNotFound found) := by
  cases found with
  | some block => exact unchanging_pure _
  | none => exact unchanging_throw _

theorem unchanging_range (chain : Bytes) (q : RangeQuery) : Unchanging (range chain q) := by
  apply Unchanging.bind
  · cases q.start with
    | some start => exact unchanging_pure start
    | none => exact (Handler.unchanging_query _).bind fun _ => unchanging_pure _
  · intro start
    exact (Handler.unchanging_query _).bind fun _ => unchanging_pure _

theorem unchanging_statistics (chain : Bytes) : Unchanging (statistics chain) := by
  apply (Handler.unchanging_query _).bind
  intro found
  cases found with
  | none => exact unchanging_throw _
  | some s =>
    dsimp only
    cases statsResponse chain s with
    | ok response => exact unchanging_pure _
    | error cause => exact unchanging_throw _

/-- How a request on a route may be served. -/
inductive Serves : Route → Handler Response → Prop
  | looking {route : Route} {answer : Handler Response} (h : Unchanging answer) :
      Serves route answer
  | opening (now : Int64) (miner : Miner) {q : OpenRequest} (hbalance : 0 ≤ q.balance) :
      Serves .createChain (createChain now miner q)
  | mining {chain : Bytes} (now : Int64) (miner : Miner) (t : Transaction) :
      Serves (.mine chain) (mine now miner t)
  | submitting (block : Block) : Serves .submit (submit block)

open Check in
theorem serves_handler {reading : Reading} {now : Int64} {fresh : Seed} {request : Request}
    {route : Route} {answer : Handler Response}
    (h : handler reading now fresh request route = .ok answer) :
    Serves route answer := by
  cases route with
  | health | newWallet =>
    cases h
    exact .looking (unchanging_pure _)
  | listChains =>
    cases h
    exact .looking ((Handler.unchanging_query _).bind fun _ => unchanging_pure _)
  | createChain =>
    simp only [handler, bind_eq_ok] at h
    obtain ⟨q, -, chain, -, seed, -, h⟩ := h
    split at h
    · cases h
    · next hbalance =>
      cases h
      exact .opening now _ (Int64.not_lt.1 hbalance)
  | tip chain | tail chain | block hash =>
    simp only [handler, bind_eq_ok, pure_eq_ok] at h
    obtain ⟨_, -, rfl⟩ := h
    exact .looking ((Handler.unchanging_query _).bind unchanging_blockOrNotFound)
  | range chain query =>
    simp only [handler, bind_eq_ok, pure_eq_ok] at h
    obtain ⟨q, -, chain, -, rfl⟩ := h
    exact .looking (unchanging_range chain q)
  | account chain publicKey =>
    simp only [handler, bind_eq_ok, pure_eq_ok] at h
    obtain ⟨_, -, _, -, rfl⟩ := h
    exact .looking ((Handler.unchanging_query _).bind fun _ => unchanging_pure _)
  | stats chain =>
    simp only [handler, bind_eq_ok, pure_eq_ok] at h
    obtain ⟨chain, -, rfl⟩ := h
    exact .looking (unchanging_statistics chain)
  | mine chain =>
    simp only [handler, bind_eq_ok, pure_eq_ok] at h
    obtain ⟨_, -, _, -, _, -, t, -, rfl⟩ := h
    exact .mining now _ t
  | submit =>
    simp only [handler, bind_eq_ok, pure_eq_ok] at h
    obtain ⟨_, -, block, -, rfl⟩ := h
    exact .submitting block

def Handler.Orderly {α : Type} (h : Handler α) : Prop := ∀ r, Leaves h r (Reached r)

namespace Handler

variable {α β ε : Type}

theorem orderly_of_unchanging {h : Handler α} (hh : Unchanging h) : h.Orderly := by
  intro r
  rw [Leaves, hh r]
  exact Reached.refl r

theorem Orderly.answered {h : Handler α} (hh : h.Orderly) (f : α → β) :
    Orderly (h >>= fun x => pure (f x)) := by
  intro r
  exact (hh r).bind fun _ _ hs => hs

theorem orderly_action {a : Node.Action ε α} {answer : ε → Handler α} (call : NodeCall)
    (ha : ∀ r, (a.run.run r).2 = call.perform r) (hcall : call.Offered)
    (hanswer : ∀ e, Unchanging (answer e)) : (action a answer).Orderly := by
  intro r
  have hreached : Reached r (a.run.run r).2 := by
    rw [ha]
    exact Reached.perform hcall r
  rw [Leaves, run_action]
  cases (a.run.run r).1 with
  | ok x => exact hreached
  | error e => exact (hanswer e _).symm ▸ hreached

end Handler

theorem Serves.orderly {route : Route} {answer : Handler Response} (h : Serves route answer) :
    answer.Orderly := by
  cases h with
  | looking h => exact Handler.orderly_of_unchanging h
  | opening now miner hbalance =>
    refine Handler.Orderly.answered ?_ _
    apply Handler.orderly_action (.openChain miner _ _) (fun _ => rfl) hbalance
    intro e
    cases e <;> exact unchanging_throw _
  | mining now miner t =>
    refine Handler.Orderly.answered ?_ _
    apply Handler.orderly_action (.mine miner t now) (fun _ => rfl) trivial
    intro e
    split
    · exact unchanging_throw _
    · exact Handler.unchanging_invalid e
  | submitting block =>
    refine Handler.Orderly.answered ?_ _
    exact Handler.orderly_action (.submit block) (fun _ => rfl) trivial
      Handler.unchanging_invalid

theorem Service.reached_handle (s : Service) (now : Int64) (fresh : Seed) (request : Request) :
    Reached s.repository (s.handle now fresh request).2.repository := by
  have hrefl := Reached.refl s.repository
  unfold Service.handle
  split
  · exact hrefl
  · next route _ =>
    split
    · exact hrefl
    · next answer hanswer =>
      have hruns := (serves_handler hanswer).orderly s.repository
      split
      · exact hrefl
      · split
        · next hrun => exact hruns.of_run hrun
        · next hrun => exact hruns.of_run hrun
        · next hrun => exact hruns.of_run hrun

/-- Requests answered one after the other, each with the time when it came and
a seed for a wallet. -/
def Service.serve (s : Service) (requests : List (Int64 × Seed × Request)) : Service :=
  requests.foldl (fun s q => (s.handle q.1 q.2.1 q.2.2).2) s

/-- Requests that are answered one after the other leave such a repository too. -/
theorem Service.reached_serve (s : Service) (requests : List (Int64 × Seed × Request)) :
    Reached s.repository (s.serve requests).repository := by
  induction requests generalizing s with
  | nil => exact Reached.refl _
  | cons q rest ih => exact (s.reached_handle q.1 q.2.1 q.2.2).trans (ih _)

end Http

end ChainState
