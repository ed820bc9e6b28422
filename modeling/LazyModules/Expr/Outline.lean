import LazyModules.Expr
import LazyModules.Number
import LazyModules.Text.Quoted

/-!
# Outlines of expressions

An outline shows a tree on one line with all of its grouping, for a reader who debugs a text: literals in
angle brackets, operators in parentheses, sequences in parentheses with a comma after a single element.
-/
namespace LazyModules

def Constant.outline : Constant → String
  | .nil => "None"
  | .flag true => "True"
  | .flag false => "False"
  | .int n => String.ofList (Nat.toDigits 10 n)
  | .float x => Number.floatText x
  | .text s => Text.quoted s

/-- A sequence in parentheses; a single element has a comma after it. -/
def outlineSequence : List String → String
  | [] => "()"
  | [x] => "(" ++ x ++ ",)"
  | xs => "(" ++ String.intercalate ", " xs ++ ")"

mutual

def Expr.outline : Expr → String
  | .literal v _ => "<lit " ++ v.outline ++ ">"
  | .lookup n _ => "<ref:" ++ n ++ ">"
  | .binary l op r _ => "(" ++ l.outline ++ " " ++ op.text ++ " " ++ r.outline ++ ")"
  | .shortcut l op r _ => "(" ++ l.outline ++ " " ++ op.text ++ " " ++ r.outline ++ ")"
  | .unary op a _ => "(" ++ op.text ++ a.outline ++ ")"
  | .call f args _ => f.outline ++ outlineSequence (outlines args)
  | .field l n _ => l.outline ++ "." ++ n
  | .subscript l i _ => l.outline ++ "[" ++ i.outline ++ "]"
  | .cond c y n _ => "<if " ++ c.outline ++ " then " ++ y.outline ++ " else " ++ n.outline ++ ">"
  | .lambda ps b _ => "<(" ++ String.intercalate ", " ps ++ ") => " ++ b.outline ++ ">"
  | .list es _ => "<list " ++ outlineSequence (outlines es) ++ ">"
  | .record fs _ => "<record " ++ outlineSequence (outlineFields fs) ++ ">"

def outlines : List Expr → List String
  | [] => []
  | e :: es => e.outline :: outlines es

def outlineFields : List (String × Expr) → List String
  | [] => []
  | (n, e) :: fs => ("(" ++ Text.quoted n ++ ", " ++ e.outline ++ ")") :: outlineFields fs

end

end LazyModules
