import LazyModules.Expr
import LazyModules.Number
import LazyModules.Scope

/-!
# Values

What expressions evaluate to. Containers hold slots, so that their elements may be left unevaluated. Lists,
records and functions have identities: two of them may look alike and still be told apart.
-/
namespace LazyModules

/-- A function and the scope it was born in. -/
structure Closure where
  id : Nat
  params : List String
  body : Expr
  scope : Scope

/-- What a name or a place in a container holds: a constant or a function at hand, or a cell. -/
inductive Slot where
  | constant (c : Constant)
  | closure (f : Closure)
  | cell (i : Nat)

inductive Value where
  | nil
  | flag (b : Bool)
  | number (n : Number)
  | text (s : String)
  | list (id : Nat) (items : List Slot)
  | record (id : Nat) (fields : Table Slot)
  | function (f : Closure)

def Constant.value : Constant → Value
  | .nil => .nil
  | .flag b => .flag b
  | .int n => .number (.int n)
  | .float x => .number (.float x)
  | .text s => .text s

/-- The word for the type of a value. -/
def Value.typeName : Value → String
  | .nil => "nil"
  | .flag _ => "flag"
  | .number _ => "number"
  | .text _ => "string"
  | .list _ _ => "list"
  | .record _ _ => "record"
  | .function _ => "function"

/-- A slot that is left unevaluated. -/
def Slot.isDelayed : Slot → Bool
  | .cell _ => true
  | _ => false

end LazyModules
