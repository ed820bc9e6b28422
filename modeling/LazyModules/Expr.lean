import LazyModules.Token

/-!
# Expressions and modules

The trees that a program text stands for. Every node keeps an offset into the text: that of its operator,
keyword, arrow or opening bracket, of the field's name in a field reference, and else of its own first
character.
-/
namespace LazyModules

/-- Operators that evaluate both operands. -/
inductive BinaryOp where
  | mul
  | div
  | mod
  | add
  | sub
  | eq
  | ne
  | lt
  | le
  | gt
  | ge
  deriving DecidableEq, Repr

def BinaryOp.text : BinaryOp → String
  | .mul => "*"
  | .div => "/"
  | .mod => "%"
  | .add => "+"
  | .sub => "-"
  | .eq => "=="
  | .ne => "!="
  | .lt => "<"
  | .le => "<="
  | .gt => ">"
  | .ge => ">="

/-- Operators that look at the right operand only if the left one leaves it open. -/
inductive Connective where
  | and
  | or
  deriving DecidableEq, Repr

def Connective.text : Connective → String
  | .and => "&&"
  | .or => "||"

inductive UnaryOp where
  | neg
  | not
  deriving DecidableEq, Repr

def UnaryOp.text : UnaryOp → String
  | .neg => "-"
  | .not => "!"

inductive Expr where
  | literal (value : Constant) (start : Nat)
  | lookup (name : String) (start : Nat)
  | binary (lhs : Expr) (op : BinaryOp) (rhs : Expr) (start : Nat)
  | shortcut (lhs : Expr) (op : Connective) (rhs : Expr) (start : Nat)
  | unary (op : UnaryOp) (arg : Expr) (start : Nat)
  | call (fn : Expr) (args : List Expr) (start : Nat)
  | field (lhs : Expr) (name : String) (start : Nat)
  | subscript (lhs : Expr) (index : Expr) (start : Nat)
  | cond (test : Expr) (yes : Expr) (no : Expr) (start : Nat)
  | lambda (params : List String) (body : Expr) (start : Nat)
  | list (elements : List Expr) (start : Nat)
  | record (fields : List (String × Expr)) (start : Nat)

namespace Expr

/-- The offset that a node keeps. -/
def start : Expr → Nat
  | .literal _ s | .lookup _ s | .binary _ _ _ s | .shortcut _ _ _ s | .unary _ _ s | .call _ _ s
  | .field _ _ s | .subscript _ _ s | .cond _ _ _ s | .lambda _ _ s | .list _ s | .record _ s => s

/-- The name that an expression looks up, if that is all it does. -/
def lookup? : Expr → Option String
  | .lookup n _ => some n
  | _ => none

end Expr

structure Declaration where
  name : String
  expr : Expr

structure Import where
  name : String
  specifier : String
  deriving DecidableEq, Repr

/-- What a whole text says: imports, then declarations, then perhaps a body. -/
structure ModuleSyntax where
  imports : List Import
  declarations : List Declaration
  body : Option Expr

end LazyModules
