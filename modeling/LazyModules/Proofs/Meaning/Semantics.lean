import Mathlib.Logic.Equiv.List
import Mathlib.Tactic.DeriveEncodable
import LazyModules.Proofs.Engine.Entries

/-!
# What expressions mean

Evaluation by need keeps cells, which run once and are shared. This module says what it comes to without any cells.
A slot that is left unevaluated has its expression and its scope in it, and is evaluated again wherever its value is
wanted. Modules are given by a program, and an import leads to the value of a module.

The sharing that evaluation by need has can be seen: a function equals itself and no other one. So everything that
has an identity tells where it comes from (`Origin`), namely which evaluation made it and as which of the things it
made. An evaluation that is done again makes the same things again.

There is no value if something goes wrong, and there is none at a depth that is too small. What goes wrong is not told.
-/
namespace LazyModules

instance encodableChar : Encodable Char := Encodable.ofLeftInjection Char.toNat (fun n => some (Char.ofNat n)) (by simp)

instance encodableString : Encodable String :=
  Encodable.ofLeftInjection String.toList (fun cs => some (String.ofList cs)) (by simp)

namespace Meaning

/-! ## Origins -/

/-- Where things come from. An origin is an evaluation as well: the one that a module or a slot takes. -/
inductive Origin where
  /-- no module -/
  | outside
  /-- the evaluation of the module at an address -/
  | module (address : String)
  /-- a name of the module at an address -/
  | declared (address name : String)
  /-- what an evaluation makes, counted from 0 -/
  | made (maker : Origin) (n : Nat)
  deriving DecidableEq, Encodable

namespace Origin

def code (o : Origin) : Nat := Encodable.encode o

theorem code_injective : Function.Injective code := Encodable.encode_injective

/-- An origin comes from an evaluation: what it makes does, and what comes from that. -/
def From : Origin → Origin → Prop
  | .made o _, x => o = x ∨ o.From x
  | .declared a _, x => x = .module a
  | _, _ => False

def depth : Origin → Nat
  | .made o _ => o.depth + 1
  | .declared _ _ => 1
  | _ => 0

theorem From.depth_lt {o x : Origin} (h : o.From x) : x.depth < o.depth := by
  induction o with
  | outside | module a => cases h
  | declared a name =>
    obtain rfl : x = .module a := h
    exact Nat.zero_lt_one
  | made o n ih =>
    rcases h with rfl | h
    · exact Nat.lt_succ_self _
    · exact Nat.lt_succ_of_lt (ih h)

theorem not_from_self (o : Origin) : ¬ o.From o := fun h => Nat.lt_irrefl _ h.depth_lt

theorem From.trans {o x y : Origin} (h : o.From x) (h' : x.From y) : o.From y := by
  induction o with
  | outside | module a => cases h
  | declared a name =>
    obtain rfl : x = .module a := h
    cases h'
  | made o n ih =>
    rcases h with rfl | h
    · exact .inr h'
    · exact .inr (ih h)

end Origin

/-! ## Slots, scopes and values -/

mutual

/-- What a name or a place in a container holds: a constant or a function at hand, or what is to be evaluated. -/
inductive Slot where
  | constant (c : Constant)
  | closure (origin : Origin) (params : List String) (body : Expr) (scope : Scope)
  | thunk (origin : Origin) (e : Expr) (scope : Scope)
  | load (origin : Origin) (target : String)

/-- The names of a module, and bindings of parameters inside them. -/
inductive Scope where
  | root (address : String)
  | bind (name : String) (slot : Slot) (outer : Scope)

end

inductive Value where
  | nil
  | flag (b : Bool)
  | number (n : Number)
  | text (s : String)
  | list (items : List Slot)
  | record (fields : Table Slot)
  | function (origin : Origin) (params : List String) (body : Expr) (scope : Scope)

abbrev Program := String → Option Module

def Value.ofConstant : Constant → Value
  | .nil => .nil
  | .flag b => .flag b
  | .int n => .number (.int n)
  | .float x => .number (.float x)
  | .text s => .text s

def Slot.origin : Slot → Origin
  | .constant _ => .outside
  | .closure o _ _ _ | .thunk o _ _ | .load o _ => o

/-- A slot for an expression. -/
def suspend (o : Origin) (s : Scope) : Expr → Slot
  | .literal c _ => .constant c
  | .lambda params body _ => .closure o params body s
  | e => .thunk o e s

/-- The slot of a name of the module at an address. -/
def entrySlot (address name : String) : Entry → Slot
  | .load target => .load (.declared address name) target
  | .expr e => suspend (.declared address name) (.root address) e

def Scope.lookup (P : Program) (name : String) : Scope → Option Slot
  | .root a => (P a).bind fun m => (Table.find? m.entries name).map (entrySlot a name)
  | .bind n x s => if name = n then some x else s.lookup P name

/-- A scope with more bindings, of which the last counts. -/
def Scope.enter (s : Scope) (bindings : List (String × Slot)) : Scope :=
  bindings.foldl (fun s p => .bind p.1 p.2 s) s

/-! ## Evaluation -/

/-- An evaluation, and how many things it has made so far. -/
structure Place where
  origin : Origin
  count : Nat

/-- The course of an evaluation, which has a value or does not. -/
abbrev Course := StateT Place Option

def fresh : Course Origin := fun p => some (.made p.origin p.count, ⟨p.origin, p.count + 1⟩)

/-- A course that is an evaluation of its own. -/
def within {α : Type} (o : Origin) (x : Course α) : Course α := fun p => (x ⟨o, 0⟩).map fun r => (r.1, p)

def delay (s : Scope) (e : Expr) : Course Slot := do return suspend (← fresh) s e

/-- Slots for named expressions, in order; of several with one name the last counts. -/
def delayFields (s : Scope) (done : Table Slot) : List (String × Expr) → Course (Table Slot)
  | [] => pure done
  | (n, e) :: fs => do
    let x ← delay s e
    delayFields s (Table.insert done n x) fs

def calculate (a : Number.Arithmetic) (x y : Number) : Course Value := do
  match Number.arithmetic a (← fresh).code x y with
  | .ok z => return .number z
  | .error _ => failure

def binary (compare : Value → Value → Course Bool) (op : BinaryOp) (a b : Value) : Course Value :=
  match op with
  | .eq => do return .flag (← compare a b)
  | .ne => do return .flag !(← compare a b)
  | .add =>
    match a, b with
    | .number x, .number y => calculate .add x y
    | .text s, .text t => pure (.text (s ++ t))
    | .list xs, .list ys => pure (.list (xs ++ ys))
    | _, _ => failure
  | .lt | .le | .gt | .ge =>
    match a, b with
    | .number x, .number y => pure (.flag (Eval.ordered op (x.order y)))
    | .text s, .text t => pure (.flag (Eval.ordered op (some (Eval.textOrder s t))))
    | _, _ => failure
  | .sub | .mul | .div | .mod =>
    match Eval.arithmetic? op, a, b with
    | some f, .number x, .number y => calculate f x y
    | _, _, _ => failure

def unary (op : UnaryOp) (v : Value) : Course Value :=
  match op, v with
  | .neg, .number n => do return .number (n.negate (← fresh).code)
  | .not, .flag b => pure (.flag !b)
  | _, _ => failure

/-- What is at an index or under a key. -/
def subscript (force : Slot → Course Value) (v index : Value) : Course Value :=
  match v, index with
  | .list items, .number (.int i) =>
    match (Eval.place? items.length i).bind (items[·]?) with
    | some x => force x
    | none => failure
  | .text s, .number (.int i) =>
    match (Eval.place? s.length i).bind (s.toList[·]?) with
    | some c => pure (.text (String.singleton c))
    | none => failure
  | .record fields, .text k =>
    match Table.find? fields k with
    | some x => force x
    | none => failure
  | _, _ => failure

def field (force : Slot → Course Value) (key : String) (v : Value) : Course Value :=
  match v with
  | .record fields =>
    match Table.find? fields key with
    | some x => force x
    | none => failure
  | _ => failure

/-- Evaluates a value all the way down, to the given depth. -/
def deep (force : Slot → Course Value) : (depth : Nat) → Value → Course Tree
  | 0, _ => failure
  | depth + 1, v =>
    match v with
    | .nil => pure .nil
    | .flag b => pure (.flag b)
    | .number n => pure (.number n)
    | .text s => pure (.text s)
    | .function o _ _ _ => pure (.function o.code)
    | .list items => do return .list (← items.mapM fun x => do deep force depth (← force x))
    | .record fields => do
      return .record (← fields.mapM fun f => do return (f.1, ← deep force depth (← force f.2)))

/-- Whether two values are equal, both evaluated all the way down to the given depth. -/
def compare (force : Slot → Course Value) (depth : Nat) (a b : Value) : Course Bool := do
  let x ← deep force depth a
  let y ← deep force depth b
  return x.equal y

/-- What may be asked for the value of. -/
inductive Question where
  | expr (e : Expr) (scope : Scope)
  | slot (x : Slot)
  | module (address : String)

/-- Calls a function with arguments, which are delayed in the scope of the call. -/
def call (answer : Question → Course Value) (s : Scope) (args : List Expr) (v : Value) : Course Value :=
  match v with
  | .function _ params body scope =>
    if params.length ≠ args.length then failure
    else do
      let xs ← args.mapM (delay s)
      answer (.expr body (scope.enter (params.zip xs)))
  | _ => failure

/-- Evaluates an expression, given the answers to the questions that arise. -/
def step (P : Program) (answer : Question → Course Value) (depth : Nat) (e : Expr) (s : Scope) : Course Value :=
  match e with
  | .literal c _ => pure (.ofConstant c)
  | .lookup name _ =>
    match s.lookup P name with
    | some x => answer (.slot x)
    | none => failure
  | .lambda params body _ => do return .function (← fresh) params body s
  | .binary lhs op rhs _ => do
    let a ← answer (.expr lhs s)
    let b ← answer (.expr rhs s)
    binary (compare (fun x => answer (.slot x)) depth) op a b
  | .shortcut lhs op rhs _ => do
    match ← answer (.expr lhs s) with
    | .flag a =>
      if a = Eval.settles op then return .flag a
      else match ← answer (.expr rhs s) with
        | .flag b => return .flag b
        | _ => failure
    | _ => failure
  | .unary op arg _ => do unary op (← answer (.expr arg s))
  | .cond test yes no _ => do
    match ← answer (.expr test s) with
    | .flag true => answer (.expr yes s)
    | .flag false => answer (.expr no s)
    | _ => failure
  | .call fn args _ => do call answer s args (← answer (.expr fn s))
  | .field lhs name _ => do field (fun x => answer (.slot x)) name (← answer (.expr lhs s))
  | .subscript lhs index _ => do
    let v ← answer (.expr lhs s)
    let i ← answer (.expr index s)
    subscript (fun x => answer (.slot x)) v i
  | .list elements _ => do return .list (← elements.mapM (delay s))
  | .record fields _ => do return .record (← delayFields s [] fields)

/-- The body of a module, or else nil. -/
def body (answer : Question → Course Value) (m : Module) (address : String) : Course Value :=
  match m.body with
  | none => pure .nil
  | some e => answer (.expr e (.root address))

/-- The value that a question asks for, to the given depth. -/
def answer (P : Program) : (depth : Nat) → Question → Course Value
  | 0, _ => failure
  | depth + 1, .expr e s => step P (answer P depth) depth e s
  | _ + 1, .slot (.constant c) => pure (.ofConstant c)
  | _ + 1, .slot (.closure o params body s) => pure (.function o params body s)
  | depth + 1, .slot (.thunk o e s) => within o (answer P depth (.expr e s))
  | depth + 1, .slot (.load o target) => within o (answer P depth (.module target))
  | depth + 1, .module a =>
    within (.module a) (match P a with
      | none => failure
      | some m => body (answer P depth) m a)

end Meaning

end LazyModules
