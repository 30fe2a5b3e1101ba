import ChainState.Bencode.Reader
import ChainState.Bytes.Fixed

/-!
# Why a repository refuses
-/

set_option autoImplicit false

namespace ChainState

/-- Why a block cannot be linked into, or cut from, the best chain. -/
inductive LinkFault where
  | onBestChain
  | parentNotTip (tip : Hash)
  | heightGap (height tipHeight : Int64)
  | noTail
  | notParentOfTail (tail : Hash)
  | notTip
  | notTail
  deriving DecidableEq

def LinkFault.message : LinkFault → String
  | .onBestChain => "block is on the best chain"
  | .parentNotTip tip => "parent is not the best tip " ++ tip.hex
  | .heightGap height tipHeight =>
    "height " ++ toString height.toInt ++ " does not follow tip height "
      ++ toString tipHeight.toInt
  | .noTail => "chain has no tail"
  | .notParentOfTail tail => "not the parent of tail " ++ tail.hex
  | .notTip => "not the best tip"
  | .notTail => "not the best tail"

inductive AccountFault where
  | offBestChain (account : PublicKey) (block : Hash)
  | notNamed (block : Hash) (account : PublicKey)
  deriving DecidableEq

def AccountFault.message : AccountFault → String
  | .offBestChain account block =>
    "account " ++ account.hex ++ " points at " ++ block.hex ++ " which is off the best chain"
  | .notNamed block account => "block " ++ block.hex ++ " does not name " ++ account.hex

inductive RepositoryError where
  | corrupt (cause : Bencode.ReadError)
  | blockNotFound (block : Hash)
  | linkage (block : Hash) (fault : LinkFault)
  | inconsistent (fault : AccountFault)
  deriving DecidableEq

def RepositoryError.message : RepositoryError → String
  | .corrupt cause => "corrupt record: " ++ cause.message
  | .blockNotFound block => "block " ++ block.hex ++ " not found"
  | .linkage block fault => "block " ++ block.hex ++ " cannot be linked: " ++ fault.message
  | .inconsistent fault => "inconsistent chain state: " ++ fault.message

end ChainState
