import LazyModules.Cell
import LazyModules.Value.Tree
import LazyModules.Eval.Objection

/-!
# Evaluation by need

An expression is evaluated in a scope, with as little work as its value needs. Arguments, elements,
fields and declarations are delayed: each becomes a cell that runs at most once. Constants and functions
are not worth a delay.

`step` says how an expression is evaluated, given a walker for the expressions inside it. `eval` ties the
knot with a bound on the depth of the evaluation, which is the only bound there is. What a cell does that
holds an import is up to the caller, who gives `load`.
-/
namespace LazyModules

/-- What a cell is to do: evaluate an expression, or bring an import to its value. -/
inductive Job where
  | expr (e : Expr) (scope : Scope)
  | load (importer name target : String)

/-- Frames, the next unused identity, and a state that evaluation does not touch. -/
structure Store (σ : Type) where
  frames : Frames Slot
  nextId : Nat
  outer : σ

/-- All that evaluation works on. -/
abbrev Heap (σ : Type) := Machine Job Value (Store σ)

abbrev Eval (σ α : Type) := Computation (Heap σ) Trouble α

namespace Eval

variable {σ : Type}

/-- How to bring an import to its value: the importer, its name for it, and the address. -/
abbrev Loader (σ : Type) := (importer name target : String) → Eval σ Value

abbrev Evaluator (σ : Type) := Expr → Scope → Eval σ Value

/-! ## The store -/

def frames : Eval σ (Frames Slot) := fun m => (.ok m.rest.frames, m)

/-- An identity that nothing else has. -/
def freshId : Eval σ Nat := fun m =>
  (.ok m.rest.nextId, { m with rest := { m.rest with nextId := m.rest.nextId + 1 } })

def modifyFrames (f : Frames Slot → Frames Slot) : Eval σ Unit := fun m =>
  (.ok (), { m with rest := { m.rest with frames := f m.rest.frames } })

def makeScope (make : Frames Slot → Scope × Frames Slot) : Eval σ Scope :=
  fun ⟨cells, frames, nextId, outer⟩ =>
    let (scope, frames) := make frames
    (.ok scope, ⟨cells, frames, nextId, outer⟩)

/-- A scope with a new frame inside `scope` that binds names to slots. -/
def enter (scope : Scope) (bindings : List (String × Slot)) : Eval σ Scope := do
  let inner ← makeScope scope.child
  modifyFrames fun fs => inner.update fs bindings
  return inner

/-! ## Trouble -/

/-- Objects to an expression in a module, near an offset. -/
def object {α : Type} (scope : Scope) (o : Objection) (near : Nat) : Eval σ α :=
  Computation.fail (.at scope.address (.complaint (o.complaint near)))

def fail {α : Type} (a : Accident) : Eval σ α := Computation.fail (.accident a)

/-! ## Delaying and forcing -/

/-- A slot for an expression, which is not evaluated yet if that is worth a delay. -/
def delay (scope : Scope) (e : Expr) : Eval σ Slot :=
  match e with
  | .literal c _ => pure (.constant c)
  | .lambda params body _ => do return .closure ⟨← freshId, params, body, scope⟩
  | e => do return .cell (← Machine.alloc (.expr e scope))

/-- Slots for named expressions, in order; of several with one name the last counts. -/
def delayFields (delay : Expr → Eval σ Slot) (done : Table Slot) : List (String × Expr) → Eval σ (Table Slot)
  | [] => pure done
  | (n, e) :: fs => do
    let s ← delay e
    delayFields delay (Table.insert done n s) fs

def runJob (load : Loader σ) (ev : Evaluator σ) : Job → Eval σ Value
  | .expr e scope => ev e scope
  | .load importer name target => load importer name target

def forceWith (load : Loader σ) (ev : Evaluator σ) : Slot → Eval σ Value
  | .constant c => pure c.value
  | .closure f => pure (.function f)
  | .cell i =>
    Machine.demand (.semantic (SemanticCause.circular none).raise) (runJob load ev) i

def mapList {α β : Type} (f : α → Eval σ β) : List α → Eval σ (List β)
  | [] => pure []
  | x :: xs => do
    let y ← f x
    return y :: (← mapList f xs)

/-- Evaluates a value all the way down, to the given depth. -/
def deepWith (force : Slot → Eval σ Value) : (depth : Nat) → Value → Eval σ Tree
  | 0, _ => Computation.exhaust
  | depth + 1, v =>
    match v with
    | .nil => pure .nil
    | .flag b => pure (.flag b)
    | .number n => pure (.number n)
    | .text s => pure (.text s)
    | .function f => pure (.function f.id)
    | .list _ items => do
      return .list (← mapList (fun s => do deepWith force depth (← force s)) items)
    | .record _ fields => do
      return .record (← mapList (fun f => do return (f.1, ← deepWith force depth (← force f.2))) fields)

/-- Whether two values are equal, both evaluated all the way down to the given depth. -/
def compareWith (force : Slot → Eval σ Value) (depth : Nat) (a b : Value) : Eval σ Bool := do
  let x ← deepWith force depth a
  let y ← deepWith force depth b
  return x.equal y

/-! ## Operators -/

def arithmetic? : BinaryOp → Option Number.Arithmetic
  | .add => some .add
  | .sub => some .sub
  | .mul => some .mul
  | .div => some .div
  | .mod => some .mod
  | _ => none

/-- Whether an order is what an operator asks for; never if there is none. -/
def ordered (op : BinaryOp) : Option Ordering → Bool
  | none => false
  | some o =>
    match op with
    | .lt => o == .lt
    | .le => o != .gt
    | .gt => o == .gt
    | .ge => o != .lt
    | _ => false

/-- The order of two texts, by code points. -/
def textOrder (a b : String) : Ordering := if a < b then .lt else if b < a then .gt else .eq

/-- The elements of two lists in one list. An empty list adds nothing, not even an identity. -/
def joinLists (i : Nat) (xs : List Slot) (j : Nat) (ys : List Slot) : Eval σ Value :=
  if xs.isEmpty then pure (.list j ys)
  else if ys.isEmpty then pure (.list i xs)
  else do return .list (← freshId) (xs ++ ys)

/-- Applies an arithmetic operator to numbers; the operator at `start` is to blame for a zero divisor. -/
def calculate (scope : Scope) (op : BinaryOp) (start : Nat) (a : Number.Arithmetic) (x y : Number) :
    Eval σ Value := do
  match Number.arithmetic a (← freshId) x y with
  | .ok z => return .number z
  | .error .divisionByZero => object scope (.divisionByZero op.text) start
  | .error f => fail (.ofNumber f)

def applyBinary (compare : Value → Value → Eval σ Bool) (scope : Scope) (op : BinaryOp) (start : Nat)
    (a b : Value) : Eval σ Value :=
  let mismatch : Eval σ Value := object scope (.mismatch op.text [a.typeName, b.typeName]) start
  match op with
  | .eq => do return .flag (← compare a b)
  | .ne => do return .flag !(← compare a b)
  | .add =>
    match a, b with
    | .number x, .number y => calculate scope op start .add x y
    | .text s, .text t => pure (.text (s ++ t))
    | .list i xs, .list j ys => joinLists i xs j ys
    | _, _ => mismatch
  | .lt | .le | .gt | .ge =>
    match a, b with
    | .number x, .number y => pure (.flag (ordered op (x.order y)))
    | .text s, .text t => pure (.flag (ordered op (some (textOrder s t))))
    | _, _ => mismatch
  | .sub | .mul | .div | .mod =>
    match arithmetic? op, a, b with
    | some f, .number x, .number y => calculate scope op start f x y
    | _, _, _ => mismatch

def applyUnary (scope : Scope) (op : UnaryOp) (start : Nat) (v : Value) : Eval σ Value :=
  match op, v with
  | .neg, .number n => do return .number (n.negate (← freshId))
  | .not, .flag b => pure (.flag !b)
  | op, v => object scope (.mismatch op.text [v.typeName]) start

/-- The left value that settles a connective. -/
def settles : Connective → Bool
  | .and => false
  | .or => true

/-! ## Containers -/

/-- The place that an index means in a sequence of length `n`; a negative one counts from the end. -/
def place? (n : Nat) (i : Int) : Option Nat :=
  if 0 ≤ i then if i < n then some i.toNat else none
  else if -(n : Int) ≤ i then some (i + n).toNat else none

/-- Objects to an index beyond either end. -/
def beyond (scope : Scope) (start : Nat) (v : Value) (i : Int) (n : Nat) : Eval σ Value :=
  match Number.intText i with
  | some t => object scope (.outOfRange t v.typeName n) start
  | none => fail .tooManyDigits

/-- What is at an index or under a key. -/
def applySubscript (force : Slot → Eval σ Value) (scope : Scope) (start : Nat) (v index : Value) :
    Eval σ Value :=
  match v, index with
  | .list _ items, .number (.int i) =>
    match (place? items.length i).bind (items[·]?) with
    | some s => force s
    | none => beyond scope start v i items.length
  | .text s, .number (.int i) =>
    match (place? s.length i).bind (s.toList[·]?) with
    | some c => pure (.text (String.singleton c))
    | none => beyond scope start v i s.length
  | .record _ fields, .text k =>
    match Table.find? fields k with
    | some s => force s
    | none => object scope (.noKey k) start
  | v, index => object scope (.notIndexable v.typeName index.typeName) start

def applyField (force : Slot → Eval σ Value) (scope : Scope) (key : String) (start : Nat) (v : Value) :
    Eval σ Value :=
  match v with
  | .record _ fields =>
    match Table.find? fields key with
    | some s => force s
    | none => object scope (.noField key (Table.keys fields)) start
  | v => object scope (.noFields v.typeName key) start

/-! ## Expressions -/

/-- How the expressions inside an expression come to their values, at once or later. -/
structure Walker (σ : Type) where
  /-- the value of an expression in a scope -/
  strict : Evaluator σ
  /-- a slot for an expression in a scope -/
  delay : Scope → Expr → Eval σ Slot
  /-- the value of a slot -/
  force : Slot → Eval σ Value
  /-- the value of a slot that a name in a scope stands for -/
  look : Scope → String → Slot → Eval σ Value
  /-- whether two values are equal -/
  compare : Value → Value → Eval σ Bool

def find (scope : Scope) (name : String) (start : Nat) : Eval σ Slot := do
  let fs ← frames
  match scope.lookup? fs name with
  | none => Computation.fail (.at scope.address (.undefinedName name (scope.names fs)))
  | some none => object scope (.tooEarly name) start
  | some (some s) => pure s

/-- The value of a slot that a name in a scope stands for. A cell that is busy demands itself. -/
def lookWith (force : Slot → Eval σ Value) (scope : Scope) (name : String) : Slot → Eval σ Value
  | .cell i => do
    if ← Machine.isBusy i then Computation.fail (.at scope.address (.circular (some name)))
    else force (.cell i)
  | s => force s

/-- The term and the offset that a call is blamed on: the function's name if it is called by name. -/
def callTerm (fn : Expr) (start : Nat) : String × Nat :=
  match fn with
  | .lookup n s => (n, s)
  | _ => ("(", start)

/-- Calls a function with arguments, which are delayed in the scope of the call. -/
def applyCall (w : Walker σ) (scope : Scope) (fn : Expr) (args : List Expr) (start : Nat) (v : Value) :
    Eval σ Value :=
  let (term, near) := callTerm fn start
  match v with
  | .function f =>
    if f.params.length ≠ args.length then
      object scope (.wrongCount f.params.length args.length term) near
    else do
      let slots ← mapList (w.delay scope) args
      let inner ← enter f.scope (f.params.zip slots)
      w.strict f.body inner
  | v => object scope (.notCallable v.typeName term) near

/-- Evaluates an expression, given a walker for the expressions inside it. -/
def step (w : Walker σ) (e : Expr) (scope : Scope) : Eval σ Value :=
  match e with
  | .literal c _ => pure c.value
  | .lookup name start => do w.look scope name (← find scope name start)
  | .lambda params body _ => do return .function ⟨← freshId, params, body, scope⟩
  | .binary lhs op rhs start => do
    let a ← w.strict lhs scope
    let b ← w.strict rhs scope
    applyBinary w.compare scope op start a b
  | .shortcut lhs op rhs start => do
    let mismatch (v : Value) : Eval σ Value := object scope (.mismatch op.text [v.typeName]) start
    match ← w.strict lhs scope with
    | .flag a =>
      if a = settles op then return .flag a
      else match ← w.strict rhs scope with
        | .flag b => return .flag b
        | v => mismatch v
    | v => mismatch v
  | .unary op arg start => do applyUnary scope op start (← w.strict arg scope)
  | .cond test yes no start => do
    match ← w.strict test scope with
    | .flag true => w.strict yes scope
    | .flag false => w.strict no scope
    | v => object scope (.notAFlag v.typeName) start
  | .call fn args start => do applyCall w scope fn args start (← w.strict fn scope)
  | .field lhs name start => do applyField w.force scope name start (← w.strict lhs scope)
  | .subscript lhs index start => do
    let v ← w.strict lhs scope
    let i ← w.strict index scope
    applySubscript w.force scope start v i
  | .list elements _ => do
    let slots ← mapList (w.delay scope) elements
    return .list (← freshId) slots
  | .record fields _ => do
    let slots ← delayFields (w.delay scope) [] fields
    return .record (← freshId) slots

/-- The walker that delays by cells, given how to evaluate an expression; `depth` is for comparisons. -/
def walker (load : Loader σ) (depth : Nat) (ev : Evaluator σ) : Walker σ :=
  let force := forceWith load ev
  ⟨ev, delay, force, lookWith force, compareWith force depth⟩

/-- Evaluates an expression in a scope, to the given depth. -/
def eval (load : Loader σ) : (depth : Nat) → Evaluator σ
  | 0, _, _ => Computation.exhaust
  | depth + 1, e, scope => step (walker load depth (eval load depth)) e scope

def force (load : Loader σ) (depth : Nat) : Slot → Eval σ Value := forceWith load (eval load depth)

end Eval

end LazyModules
