import LazyModules.Eval
import LazyModules.Token.Literal

/-!
# Displaying values

A value is shown in the notation of the language, and evaluated on the way as far as that takes. A text
that stands alone is shown as it is; inside a container it is quoted. A container that is met again on the
way down from itself is shown as `...`.
-/
namespace LazyModules.Eval

variable {σ : Type}

/-- A text inside a container. -/
def quote (s : String) : String := String.ofList (Literal.write s.toList)

/-- Shows a value inside the containers with the identities `busy`, to the given depth. -/
def showWith (force : Slot → Eval σ Value) : (depth : Nat) → (busy : List Nat) → Value → Eval σ String
  | 0, _, _ => Computation.exhaust
  | depth + 1, busy, v =>
    match v with
    | .nil => pure "nil"
    | .flag b => pure (if b then "true" else "false")
    | .text s => pure (quote s)
    | .number n =>
      match n.text with
      | some t => pure t
      | none => fail .tooManyDigits
    | .function _ => pure "<function>"
    | .list id items =>
      if busy.contains id then pure "..." else do
      let shown ← mapList (fun s => do showWith force depth (id :: busy) (← force s)) items
      return "[" ++ String.intercalate ", " shown ++ "]"
    | .record id fields =>
      if busy.contains id then pure "..." else do
      let shown ← mapList
        (fun f => do return f.1 ++ ": " ++ (← showWith force depth (id :: busy) (← force f.2))) fields
      return "\x7b" ++ String.intercalate ", " shown ++ "\x7d"

/-- Shows a value, given the values of slots, to the given depth. -/
def displayWith (force : Slot → Eval σ Value) (depth : Nat) (v : Value) : Eval σ String :=
  match v with
  | .text s => pure s
  | v => showWith force depth [] v

end LazyModules.Eval
