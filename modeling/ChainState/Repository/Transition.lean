import ChainState.Repository.Query

/-!
# Moving the best chain

The best chain of a chain id runs from its tail to its tip. Blocks are
connected above the tip and below the tail; the tip is rolled back to become
a fork, and the tail expires. Every step keeps the height records, the links
of the accounts that the block names, and their spans.

A transition that fails keeps what it had written before.
-/

set_option autoImplicit false

namespace ChainState

variable [Crypto]

abbrev Transition (α : Type) := ExceptT RepositoryError (StateM Repository) α

namespace Transition

def query {α : Type} (q : Repository → Query α) : Transition α := do
  match q (← get) with
  | .ok x => return x
  | .error e => throw e

def put (k : Key) (value : Bytes) : Transition Unit := modify (·.put k value)

def delete (k : Key) : Transition Unit := modify (·.delete k)

def note (block : Block) : Transition Unit := modify (·.note block)

def saveLinks (links : Links) : Transition Unit := put (.links links.block) links.encode

def saveSpan (chain : Bytes) (pk : PublicKey) (span : Span) : Transition Unit :=
  put (.span chain pk) span.encode

def saveHeight (chain : Bytes) (height : Int64) (record : HeightRecord) : Transition Unit :=
  put (.height chain height) record.encode

/-- A height record that names no block is deleted. -/
def storeHeight (chain : Bytes) (height : Int64) (record : HeightRecord) : Transition Unit :=
  if record.isEmpty then delete (.height chain height) else saveHeight chain height record

def setTip (chain : Bytes) (hash : Hash) : Transition Unit := put (.tip chain) hash.bytes

def setTail (chain : Bytes) (hash : Hash) : Transition Unit := put (.tail chain) hash.bytes

def saveChains (chains : SortedSet Bytes) : Transition Unit :=
  put .chains (recordOfChains chains)

def addChain (chain : Bytes) : Transition Unit := do
  let chains ← query (·.chains)
  unless chains.contains chain do saveChains (chains.insert chain)

def amendLinks (hash : Hash) (f : Links → Links) : Transition Unit := do
  match ← query (·.findLinks hash) with
  | some links => saveLinks (f links)
  | none => return

def eraseBlock (hash : Hash) : Transition Unit := do
  delete (.block hash)
  delete (.links hash)

def heightRecord (chain : Bytes) (height : Int64) : Transition HeightRecord := do
  return (← query (·.findHeight chain height)).getD .empty

def linkFault {α : Type} (block : Block) (fault : LinkFault) : Transition α :=
  throw (.linkage block.hash fault)

def saveFork (block : Block) : Transition Unit := do
  let hash := block.hash
  put (.block hash) block.encode
  let record ← heightRecord block.chain block.height
  saveHeight block.chain block.height (record.addFork hash)

def childrenAmong (parents : List Hash) : List Hash → Transition (List Hash)
  | [] => return []
  | hash::rest => do
    let child ← query (·.findBlock hash)
    let others ← childrenAmong parents rest
    match child with
    | some child => return if child.parent ∈ parents then hash::others else others
    | none => return others

def eraseForks (chain : Bytes) (height : Int64) (record : HeightRecord) (forks : List Hash) :
    Transition Unit := do
  forks.forM eraseBlock
  storeHeight chain height (forks.foldl HeightRecord.remove record)

/-- Deletes the forks at `height` whose parent is among `removed`, then at the
next height their children, and so on. Gives how many went. -/
def pruneOrphans (chain : Bytes) (height : Int64) (removed : List Hash) : Transition Nat := do
  if removed = [] then return 0
  match ← query (·.findHeight chain height) with
  | none => return 0
  | some record =>
    let orphans ← childrenAmong removed record.forks.elements
    unless orphans = [] do eraseForks chain height record orphans
    match _h : Checked.succ? height with
    | none => return orphans.length
    | some above => return orphans.length + (← pruneOrphans chain above orphans)
termination_by (Int64.maxValue.toInt - height.toInt).toNat
decreasing_by
  have hs := Checked.toInt_succ? _h
  have hm := Int64.toInt_le above
  omega

def deleteBlock (hash : Hash) : Transition Unit := do
  match ← query (·.findBlock hash) with
  | none => return
  | some block =>
    match ← query (·.findHeight block.chain block.height) with
    | none => pure ()
    | some record =>
      if record.main = some hash then linkFault block .onBestChain
      storeHeight block.chain block.height (record.remove hash)
    eraseBlock hash
    match Checked.succ? block.height with
    | some above => discard (pruneOrphans block.chain above [hash])
    | none => return

/-- Makes `hash` the latest block of an account, and notes in its links the
one that was. -/
def threadAbove (chain : Bytes) (hash : Hash) (links : Links) (pk : PublicKey) :
    Transition Links := do
  match ← query (·.findSpan chain pk) with
  | some span =>
    amendLinks span.latest (·.setNext pk hash)
    saveSpan chain pk { span with latest := hash }
    return links.setPrevious pk span.latest
  | none =>
    saveSpan chain pk ⟨hash, hash⟩
    return links.setPrevious pk .zero

def checkAboveTip (block : Block) : Transition Unit := do
  match ← query (·.tip block.chain) with
  | none => return
  | some tip =>
    if block.parent ≠ tip.hash then linkFault block (.parentNotTip tip.hash)
    if Checked.succ? tip.height ≠ some block.height then
      linkFault block (.heightGap block.height tip.height)

def promote (block : Block) (hash : Hash) : Transition Unit := do
  let record ← heightRecord block.chain block.height
  saveHeight block.chain block.height (record.promote hash)

def connectTip (block : Block) : Transition Unit := do
  checkAboveTip block
  let hash := block.hash
  put (.block hash) block.encode
  let links ← block.affected.foldlM (threadAbove block.chain hash) (.ofBlock hash)
  saveLinks links
  promote block hash
  setTip block.chain hash
  if (← query (·.tailHash block.chain)) = none then setTail block.chain hash
  addChain block.chain
  note block

def threadBelow (chain : Bytes) (hash : Hash) (links : Links) (pk : PublicKey) :
    Transition Links := do
  let links := links.setPrevious pk .zero
  match ← query (·.findSpan chain pk) with
  | some span =>
    amendLinks span.oldest (·.setPrevious pk hash)
    saveSpan chain pk { span with oldest := hash }
    return links.setNext pk span.oldest
  | none =>
    saveSpan chain pk ⟨hash, hash⟩
    return links

def checkBelowTail (block : Block) (hash : Hash) : Transition Unit := do
  match ← query (·.tail block.chain) with
  | none => linkFault block .noTail
  | some tail =>
    if tail.parent ≠ hash ∨ Checked.succ? block.height ≠ some tail.height then
      linkFault block (.notParentOfTail tail.hash)

def connectTail (block : Block) : Transition Unit := do
  let hash := block.hash
  checkBelowTail block hash
  put (.block hash) block.encode
  let links ← block.affected.foldlM (threadBelow block.chain hash) (.ofBlock hash)
  saveLinks links
  promote block hash
  setTail block.chain hash
  note block

def unthreadAbove (chain : Bytes) (hash : Hash) (links : Links) (pk : PublicKey) :
    Transition Unit := do
  let previous := links.previousOf pk
  unless previous.isZero do amendLinks previous (·.clearNext pk)
  match ← query (·.findSpan chain pk) with
  | some span =>
    if previous.isZero ∨ span.oldest = hash then delete (.span chain pk)
    else saveSpan chain pk { span with latest := previous }
  | none => delete (.span chain pk)

/-- Takes the tip off the best chain. It stays stored as a fork. -/
def rollBack (block : Block) : Transition Unit := do
  let hash := block.hash
  if (← query (·.tipHash block.chain)) ≠ some hash then linkFault block .notTip
  let links := (← query (·.findLinks hash)).getD (.ofBlock hash)
  block.affected.forM (unthreadAbove block.chain hash links)
  delete (.links hash)
  let record ← heightRecord block.chain block.height
  saveHeight block.chain block.height (record.demote hash)
  if (← query (·.tailHash block.chain)) = some hash then
    delete (.tip block.chain)
    delete (.tail block.chain)
  else setTip block.chain block.parent
  note block

def unthreadBelow (chain : Bytes) (links : Links) (pk : PublicKey) : Transition Unit := do
  match links.next.find? pk with
  | some next =>
    amendLinks next (·.setPrevious pk .zero)
    match ← query (·.findSpan chain pk) with
    | some span => saveSpan chain pk { span with oldest := next }
    | none => return
  | none => delete (.span chain pk)

def mainHashAbove (r : Repository) (chain : Bytes) (height : Int64) : Query (Option Hash) :=
  match Checked.succ? height with
  | some above => r.mainHashAt chain above
  | none => return none

/-- Drops the tail of the best chain, with the forks at its height and their
descendants. -/
def expire (block : Block) : Transition Unit := do
  let hash := block.hash
  if (← query (·.tailHash block.chain)) ≠ some hash then linkFault block .notTail
  let links := (← query (·.findLinks hash)).getD (.ofBlock hash)
  block.affected.forM (unthreadBelow block.chain links)
  match ← query (mainHashAbove · block.chain block.height) with
  | some next => setTail block.chain next
  | none =>
    delete (.tail block.chain)
    delete (.tip block.chain)
  let record ← heightRecord block.chain block.height
  record.forks.elements.forM eraseBlock
  delete (.height block.chain block.height)
  match Checked.succ? block.height with
  | some above => discard (pruneOrphans block.chain above record.forks.elements)
  | none => pure ()
  eraseBlock hash
  note block

end Transition

end ChainState
