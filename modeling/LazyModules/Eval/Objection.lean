import LazyModules.Expr
import LazyModules.Accident
import LazyModules.SemanticError

/-!
# Objections

What evaluation can object to in an expression: the cause, the words for it, and the term to point at.
-/
namespace LazyModules

/-- An objection to an expression. Types are given by their words. -/
inductive Objection where
  /-- a name that is declared and has no value yet -/
  | tooEarly (name : String)
  /-- an operator on operands of types it does not work on -/
  | mismatch (op : String) (types : List String)
  | divisionByZero (op : String)
  /-- a condition that is no flag -/
  | notAFlag (type : String)
  /-- something called that is no function; `term` names it in the text -/
  | notCallable (type term : String)
  /-- a call with the wrong number of arguments -/
  | wrongCount (params args : Nat) (term : String)
  /-- a field of something that is no record -/
  | noFields (type key : String)
  /-- a field that a record does not have, and those that it has -/
  | noField (key : String) (fields : List String)
  /-- a key that a record does not have -/
  | noKey (key : String)
  /-- an index, given in decimal, beyond either end -/
  | outOfRange (index : String) (type : String) (length : Nat)
  /-- something indexed by what it cannot be indexed by -/
  | notIndexable (type index : String)
  deriving DecidableEq, Repr

namespace Objection

def message : Objection → String
  | .tooEarly name => "'" ++ name ++ "' is used before it has a value."
  | .mismatch op types =>
    "Operator '" ++ op ++ "' does not work on " ++ String.intercalate " and " types ++ "."
  | .divisionByZero _ => "Division by zero."
  | .notAFlag type => "A condition must be a flag, not a " ++ type ++ "."
  | .notCallable type _ => "A " ++ type ++ " cannot be called like a function."
  | .wrongCount params args _ =>
    "This takes " ++ toString params ++ " argument" ++ (if params = 1 then "" else "s") ++
      ", but got " ++ toString args ++ " instead."
  | .noFields type key => "A " ++ type ++ " has no fields; in particular not '" ++ key ++ "'."
  | .noField key _ => "This record has no field called '" ++ key ++ "'."
  | .noKey key => "This record has no field called '" ++ key ++ "'."
  | .outOfRange index type length =>
    "Index " ++ index ++ " is out of range for a " ++ type ++ " of length " ++ toString length ++ "."
  | .notIndexable type index => "Cannot index a " ++ type ++ " with a " ++ index ++ "."

def term : Objection → String
  | .tooEarly name => name
  | .mismatch op _ => op
  | .divisionByZero op => op
  | .notAFlag _ => "if"
  | .notCallable _ term => term
  | .wrongCount _ _ term => term
  | .noFields _ key => key
  | .noField key _ => key
  | .noKey _ => "["
  | .outOfRange _ _ _ => "["
  | .notIndexable _ _ => "["

def extra : Objection → List String
  | .noField _ fields =>
    if fields.isEmpty then [] else ["It does have: " ++ String.intercalate ", " fields]
  | _ => []

def complaint (o : Objection) (near : Nat) : Complaint := ⟨o.message, o.term, o.extra, some near⟩

end Objection

/-- In which phase of its life a module failed. -/
inductive Phase where
  | parse
  | evaluate
  deriving DecidableEq, Repr

def Phase.name : Phase → String
  | .parse => "parse"
  | .evaluate => "evaluate"

/-- What ends an evaluation early: an error to be blamed on the program, a problem that has been
reported already, or an accident. -/
inductive Trouble where
  | semantic (e : SemanticError)
  | reported (phase : Phase)
  | accident (a : Accident)

/-- An error with this cause that arose in a module. -/
def Trouble.at (address : String) (c : SemanticCause) : Trouble :=
  .semantic (c.raise.at (some address))

end LazyModules
