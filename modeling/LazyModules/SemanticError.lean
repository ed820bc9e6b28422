import LazyModules.Table

/-!
# Semantic errors

What can go wrong while a program is brought to a value and can be blamed on a place in its text. An
error remembers the module that was running when it arose.
-/
namespace LazyModules

/-- A message, and a term of the source text to point at: near an offset if that is known. -/
structure Complaint where
  message : String
  term : String
  extra : List String
  near : Option Int
  deriving DecidableEq, Repr

inductive SemanticCause where
  /-- a name that nothing in sight defines -/
  | undefinedName (name : String) (available : List String)
  | complaint (c : Complaint)
  /-- a value whose computation demands it, under a name if it has one -/
  | circular (name : Option String)
  /-- an import that closes a cycle -/
  | cyclicImport (importer name : String) (cycle : List String)
  /-- a message with nothing in particular to point at -/
  | grievance (message : String) (extra : List String)
  /-- a message that nobody knows how to report -/
  | unclassified (message : String)
  deriving DecidableEq, Repr

/-- What went wrong, and in which module if that is known. -/
structure SemanticError where
  cause : SemanticCause
  address : Option String
  deriving DecidableEq, Repr

namespace SemanticCause

def message : SemanticCause → String
  | .undefinedName name _ => "Name not found: " ++ name
  | .complaint c => c.message
  | .circular none => "This value depends on itself."
  | .circular (some name) => "The value of '" ++ name ++ "' depends on itself."
  | .cyclicImport _ _ _ => "Here begins a cycle of imports."
  | .grievance message _ => message
  | .unclassified message => message

/-- What is told below the message. -/
def extra : SemanticCause → List String
  | .complaint c => c.extra
  | .cyclicImport _ _ cycle => "The full cycle is:" :: cycle.map ("    " ++ ·)
  | .grievance _ extra => extra
  | _ => []

def term : SemanticCause → String
  | .undefinedName name _ => name
  | .complaint c => c.term
  | .circular name => name.getD ""
  | .cyclicImport _ name _ => name
  | _ => ""

def near : SemanticCause → Option Int
  | .complaint c => c.near
  | _ => none

/-- The error with this cause before anybody said where it arose. An import that closes a cycle arose
in its importer. -/
def raise (c : SemanticCause) : SemanticError :=
  match c with
  | .cyclicImport importer _ _ => ⟨c, some importer⟩
  | c => ⟨c, none⟩

end SemanticCause

/-- Remembers a module unless one is remembered already. -/
def SemanticError.at (e : SemanticError) (address : Option String) : SemanticError :=
  { e with address := e.address <|> address }

end LazyModules
