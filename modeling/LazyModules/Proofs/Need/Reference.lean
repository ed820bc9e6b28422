import LazyModules.Proofs.Need.Identity
import LazyModules.Proofs.Walk.Heap

/-!
# Evaluation by name

The plain meaning of delayed expressions, which evaluation by need is measured against: whenever a delayed
expression is demanded, it is evaluated again in its scope. Nothing is remembered and nothing is under way.
The cells of a heap matter only for the jobs they were made for.

A comparison may be refused, which counts as having no result; `Tree.sure` refuses those whose answer
depends on which functions, or which absences of a number, are the very same.
-/
namespace LazyModules.Eval

variable {σ : Type}

/-- The value of a slot, by evaluating the expression that the slot was made for. -/
def forceAgain (ev : Evaluator σ) : Slot → Eval σ Value
  | .constant c => pure c.value
  | .closure f => pure (.function f)
  | .cell i => fun m =>
    match Heap.job? m i with
    | some (.expr e scope) => ev e scope m
    | _ => (.exhausted, m)

/-- Whether two values are equal, if their comparison is one that is `allowed`. -/
def compareAgain (allowed : Tree → Tree → Bool) (ev : Evaluator σ) (depth : Nat) (a b : Value) :
    Eval σ Bool := do
  let x ← deepWith (forceAgain ev) depth a
  let y ← deepWith (forceAgain ev) depth b
  if allowed x y then return x.equal y else Computation.exhaust

/-- The walker that remembers nothing. -/
def forgetful (allowed : Tree → Tree → Bool) (depth : Nat) (ev : Evaluator σ) : Walker σ :=
  ⟨ev, delay, forceAgain ev, fun _ _ => forceAgain ev, compareAgain allowed ev depth⟩

/-- Evaluates an expression in a scope by name, to the given depth. -/
def byName (allowed : Tree → Tree → Bool) : (depth : Nat) → Evaluator σ
  | 0, _, _ => Computation.exhaust
  | depth + 1, e, scope => step (forgetful allowed depth (byName allowed depth)) e scope

/-- Evaluation by name in which every comparison is sure. -/
abbrev surely (depth : Nat) : Evaluator σ := byName Tree.sure depth

end LazyModules.Eval
