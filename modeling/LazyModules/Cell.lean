import LazyModules.Computation

/-!
# Cells

A cell computes its result at most once. It holds a job until somebody demands the result, is busy while
the job runs, and then holds the result for good. A demand that reaches a busy cell is circular. A job
that fails leaves its cell waiting again, so that a later demand tries once more.
-/
namespace LazyModules

/-- A job that waits, runs, or has come to its result. -/
inductive Cell (π ρ : Type) where
  | waiting (job : π)
  | busy (job : π)
  | done (job : π) (result : ρ)

namespace Cell

variable {π ρ : Type}

def isBusy : Cell π ρ → Bool
  | .busy _ => true
  | _ => false

def job : Cell π ρ → π
  | .waiting job | .busy job | .done job _ => job

def stateName : Cell π ρ → String
  | .waiting _ => "unevaluated"
  | .busy _ => "in-progress"
  | .done _ _ => "evaluated"

/-- A cell in words: its state, or its result in the words of `describeResult`. -/
def describe (describeResult : ρ → String) : Cell π ρ → String
  | .done _ r => "<Thunk = " ++ describeResult r ++ ">"
  | c => "<Thunk " ++ c.stateName ++ ">"

end Cell

/-- Cells, each known by its place, and the rest of the state. -/
structure Machine (π ρ τ : Type) where
  cells : Array (Cell π ρ)
  rest : τ

namespace Machine

variable {π ρ τ ε α : Type}

/-- A computation that may demand cells. -/
abbrev Run (π ρ τ ε α : Type) := Computation (Machine π ρ τ) ε α

def setCell (m : Machine π ρ τ) (i : Nat) (c : Cell π ρ) : Machine π ρ τ :=
  { m with cells := m.cells.setIfInBounds i c }

def alloc (job : π) : Run π ρ τ ε Nat := fun m =>
  (.ok m.cells.size, { m with cells := m.cells.push (.waiting job) })

def isBusy (i : Nat) : Run π ρ τ ε Bool := fun m =>
  (.ok (m.cells[i]?.any Cell.isBusy), m)

/-- The result of a cell, by running its job if that has not been done. -/
def demand (circular : ε) (run : π → Run π ρ τ ε ρ) (i : Nat) : Run π ρ τ ε ρ := fun m =>
  match m.cells[i]? with
  | none => (.exhausted, m)
  | some (.done _ r) => (.ok r, m)
  | some (.busy _) => (.error circular, m)
  | some (.waiting job) =>
    match run job (m.setCell i (.busy job)) with
    | (.ok r, m) => (.ok r, m.setCell i (.done job r))
    | (.error e, m) => (.error e, m.setCell i (.waiting job))
    | (.exhausted, m) => (.exhausted, m.setCell i (.waiting job))

/-- Demands again as long as a result only names another cell, at most `fuel` times. -/
def pursue (circular : ε) (run : π → Run π ρ τ ε ρ) (next : ρ → Option Nat) :
    (fuel : Nat) → ρ → Run π ρ τ ε ρ
  | 0, _ => Computation.exhaust
  | fuel + 1, r =>
    match next r with
    | none => Computation.pure r
    | some i => (demand circular run i).bind (pursue circular run next fuel)

end Machine

end LazyModules
