import ChainState.Repository.Session
import ChainState.Validation

/-!
# Fork choice

A branch is a list of linked blocks whose first has its parent on the best
chain. It replaces the best chain above that parent if every block of it
passes validation there and it ends heavier than the tip. All of this happens
in an overlay, which is committed only in that case.
-/

set_option autoImplicit false

namespace ChainState

inductive SwitchError where
  | repository (cause : RepositoryError)
  | validation (cause : ValidationError)
  | emptyBranch
  | discontinuous (block : Hash)
  | unknownForkPoint (block : Hash)
  | emptyChain
  | tooDeep (depth limit : Int64)
  deriving DecidableEq

def SwitchError.message : SwitchError → String
  | .repository cause => cause.message
  | .validation cause => cause.message
  | .emptyBranch => "branch is empty"
  | .discontinuous block => "branch does not link at block " ++ block.hex
  | .unknownForkPoint block => "fork point " ++ block.hex ++ " is not on the best chain"
  | .emptyChain => "chain has no best tip"
  | .tooDeep depth limit =>
    "reorganisation depth " ++ toString depth.toInt ++ " exceeds " ++ toString limit.toInt

inductive SwitchOutcome where
  | switched
  | kept
  deriving DecidableEq, Repr

namespace Branch

variable [Crypto]

/-- The first block that is no child of the one before it, or lies on another
chain. -/
def gap? (chain : Bytes) : Block → List Block → Option Block
  | _, [] => none
  | parent, block::rest =>
    if block.parent = parent.hash ∧ block.chain = chain then gap? chain block rest
    else some block

abbrev Rebase (α : Type) := ExceptT SwitchError (StateM Repository) α

def transition {α : Type} (t : Transition α) : Rebase α :=
  ExceptT.mk do
    match ← t.run with
    | .ok x => return .ok x
    | .error e => return .error (.repository e)

def rollBackTo (forkPoint : Hash) : Nat → Block → Rebase Unit
  | 0, _ => return
  | steps+1, cursor => do
    if cursor.hash = forkPoint then return
    transition (Transition.rollBack cursor)
    let parent ← transition (Transition.query (·.namedBlock cursor.parent))
    rollBackTo forkPoint steps parent

def extend (block : Block) : Rebase Unit := do
  match validateBlock (← get) block with
  | .ok _ => transition (Transition.connectTip block)
  | .error e => throw (.validation e)

/-- Puts the branch in the place of the best chain above the fork point. No
block is rolled back twice, and every one of them is stored. -/
def rebase (tip : Block) (forkPoint : Hash) (branch : List Block) : Rebase Unit := do
  let steps := Consensus.maxReorgDepth.toInt.toNat + (← get).recordCount + 1
  rollBackTo forkPoint steps tip
  branch.forM extend

/-- The fork point has to be on the best chain, and not too far below the
tip. Gives the tip. -/
def checkForkPoint (r : Repository) (chain : Bytes) (forkPoint : Hash) :
    Except SwitchError Block := do
  let query {α : Type} (q : Query α) : Except SwitchError α := q.mapError .repository
  match ← query (r.findBlock forkPoint) with
  | none => throw (.unknownForkPoint forkPoint)
  | some block =>
    if (← query (r.mainHashAt chain block.height)) ≠ some forkPoint then
      throw (.unknownForkPoint forkPoint)
    match ← query (r.tip chain) with
    | none => throw .emptyChain
    | some tip =>
      let depth := Checked.clampedSub tip.height block.height
      if Consensus.maxReorgDepth < depth then throw (.tooDeep depth Consensus.maxReorgDepth)
      return tip

/-- Makes the branch the best chain if it is the heavier one. In every other
case the overlay is dropped, with all that was done in it. -/
def switch (r : Repository) : List Block → Except SwitchError SwitchOutcome × Repository
  | [] => (.error .emptyBranch, r)
  | first::rest =>
    match gap? first.chain first rest with
    | some block => (.error (.discontinuous block.hash), r)
    | none =>
      match checkForkPoint r first.chain first.parent with
      | .error e => (.error e, r)
      | .ok tip =>
        match (rebase tip first.parent (first::rest)).run.run r.track with
        | (.error e, session) => (.error e, session.untrack)
        | (.ok _, session) =>
          let last := (first::rest).getLast (List.cons_ne_nil _ _)
          if tip.cumulativeDifficulty < last.cumulativeDifficulty then
            (.ok .switched, session.handDown.untrack)
          else (.ok .kept, session.untrack)

end Branch

end ChainState
