/-!
# Computations with state

A computation reads and changes a state and ends with a value, with an error, or because the bound on
its depth was too small. The state it leaves is kept in all three cases.
-/
namespace LazyModules

inductive Outcome (ε α : Type) where
  | ok (a : α)
  | error (e : ε)
  /-- the bound was too small to tell -/
  | exhausted

def Computation (σ ε α : Type) : Type := σ → Outcome ε α × σ

namespace Computation

variable {σ ε α β : Type}

def pure (a : α) : Computation σ ε α := fun s => (.ok a, s)

def bind (m : Computation σ ε α) (f : α → Computation σ ε β) : Computation σ ε β := fun s =>
  match m s with
  | (.ok a, s) => f a s
  | (.error e, s) => (.error e, s)
  | (.exhausted, s) => (.exhausted, s)

instance : Monad (Computation σ ε) where
  pure := pure
  bind := bind

def fail (e : ε) : Computation σ ε α := fun s => (.error e, s)

/-- Ends for want of depth. -/
def exhaust : Computation σ ε α := fun s => (.exhausted, s)

instance : Inhabited (Computation σ ε α) := ⟨exhaust⟩

def get : Computation σ ε σ := fun s => (.ok s, s)

def modify (f : σ → σ) : Computation σ ε Unit := fun s => (.ok (), f s)

/-- Ends like `m`, whose error is handled by `handler` in the state that `m` left. -/
def tryCatch (m : Computation σ ε α) (handler : ε → Computation σ ε α) : Computation σ ε α := fun s =>
  match m s with
  | (.error e, s) => handler e s
  | r => r

/-- Ends like `m`, with `f` applied to the state it leaves. -/
def ensure (m : Computation σ ε α) (f : σ → σ) : Computation σ ε α := fun s =>
  let r := m s
  (r.1, f r.2)

def ofExcept : Except ε α → Computation σ ε α
  | .ok a => pure a
  | .error e => fail e

end Computation

end LazyModules
