/-!
# JSON values of a response
-/

set_option autoImplicit false

namespace ChainState.Http

inductive Json where
  | null
  | bool (value : Bool)
  | int (value : Int)
  | float (value : Float)
  | string (value : String)
  | array (items : List Json)
  | object (fields : List (String × Json))

namespace Json

instance : Inhabited Json := ⟨.null⟩

def word (n : UInt64) : Json := .int n.toNat

def number (n : Int64) : Json := .int n.toInt

def ofOption {α : Type} (f : α → Json) : Option α → Json
  | some x => f x
  | none => .null

end Json

end ChainState.Http
