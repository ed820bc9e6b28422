import LazyModules.Value

/-!
# Values evaluated all the way down

A tree is a value without anything left unevaluated. Trees are what equality compares: flags equal the
numbers 1 and 0, the order of a record's fields does not matter, functions equal themselves. Something
that is not a number equals nothing; yet inside a container, the very same one in both places counts as
equal.
-/
namespace LazyModules

/-- A value evaluated all the way down. -/
inductive Tree where
  | nil
  | flag (b : Bool)
  | number (n : Number)
  | text (s : String)
  | list (items : List Tree)
  | record (fields : List (String × Tree))
  | function (id : Nat)

namespace Tree

/-- The number that a flag or a number stands for in a comparison. -/
def number? : Tree → Option Number
  | .flag b => some (.int (if b then 1 else 0))
  | .number n => some n
  | _ => none

/-- The very same absence of a number. -/
def sameNan : Tree → Tree → Bool
  | .number a, .number b => a.sameNan b
  | _, _ => false

mutual

/-- Equality as the language sees it. -/
def equal : Tree → Tree → Bool
  | .nil, .nil => true
  | .text s, .text t => s == t
  | .list xs, .list ys => equalItems xs ys
  | .record xs, .record ys => xs.length == ys.length && equalFields xs ys
  | .function i, .function j => i == j
  | .flag a, t => match t.number? with
    | some n => Number.equal (.int (if a then 1 else 0)) n
    | none => false
  | .number m, t => match t.number? with
    | some n => m.equal n
    | none => false
  | _, _ => false

/-- Whether elements are pairwise equal or the very same. -/
def equalItems : List Tree → List Tree → Bool
  | [], [] => true
  | x :: xs, y :: ys => (x.sameNan y || equal x y) && equalItems xs ys
  | _, _ => false

/-- Whether each field is among `others` with an equal or the very same value. -/
def equalFields : List (String × Tree) → (others : List (String × Tree)) → Bool
  | [], _ => true
  | (k, x) :: xs, others =>
    (match others.lookup k with
      | some y => x.sameNan y || equal x y
      | none => false) && equalFields xs others

end

end Tree

end LazyModules
