import LazyModules.Proofs.Grammar.Derivation

/-!
# A machine that builds derivations

Takes tokens one at a time, as the machine of `Parse` does, and keeps derivations where that one keeps
expressions. It asks nothing of parentheses before an arrow: where the machine of `Parse` stops on their
account, `step` tells the offset of the arrow and goes on.

The unary operators before an operand are kept with the operand, and by the bracket that opens inside it.
So the frames of a stack are never between an operator and its sign.
-/
namespace LazyModules.Grammar

open Parse (Operator)

/-- Unary operators that wait for their operand, the innermost first. -/
abbrev Signs := List (UnaryOp × Nat)

/-- An operand with its unary operators. -/
def sign (signs : Signs) (p : Derivation .suffixed) : Derivation .unary :=
  signs.foldl (fun u s => .signed s.1 s.2 u) (.unsigned p)

/-- The elements of a sequence so far, with the comma after them. -/
abbrev Listed (x : Phrase) := Option (Derivation (.some x) × Nat)

namespace Listed

variable {x : Phrase}

def add : Listed x → Derivation x → Derivation (.some x)
  | none, d => .first d
  | some (s, i), d => .more s i d

/-- The whole sequence, if no element comes any more. -/
def items : Listed x → Derivation (.items x)
  | none => .none
  | some (s, i) => .spare s i

end Listed

/-- Parameters in parentheses: no name, or two and more. -/
inductive Params where
  | none (i j : Nat)
  | many (i : Nat) (n : Derivation .name) (j : Nat) (ns : Derivation (.some .name)) (k : Nat)

/-- What stands before an arrow. -/
inductive Head where
  | one (n : Derivation .name)
  | paren (p : Derivation .parenthesized)
  | params (ps : Params)

def Head.lambda (i : Nat) (e : Derivation .expr) : Head → Derivation .expr
  | .one n => .lambdaOne n i e
  | .paren p => .lambdaParen p i e
  | .params (.none h j) => .lambdaNone h j i e
  | .params (.many h n j ns k) => .lambdaMany h n j ns k i e

/-- What opens a sequence of expressions. -/
inductive Opening where
  | args (signs : Signs) (fn : Derivation .suffixed) (i : Nat)
  | list (signs : Signs) (i : Nat)

def Opening.closer : Opening → Mark
  | .args _ _ _ => .closeParen
  | .list _ _ => .closeBracket

inductive Pending where
  | operator (l : Derivation .expr) (op : Operator) (i : Nat)
  | test (i : Nat)
  | yes (i : Nat) (t : Derivation .expr) (j : Nat)
  | no (i : Nat) (t : Derivation .expr) (j : Nat) (y : Derivation .expr) (k : Nat)
  | lambda (h : Head) (i : Nat)
  | group (signs : Signs) (i : Nat)
  | sequence (o : Opening) (done : Listed .expr)
  | subscript (signs : Signs) (p : Derivation .suffixed) (i : Nat)
  | field (signs : Signs) (i : Nat) (done : Listed .field) (n : Derivation .name) (j : Nat)

inductive Focus where
  | operand (signs : Signs)
  | complete (signs : Signs) (p : Derivation .suffixed)
  | afterDot (signs : Signs) (p : Derivation .suffixed) (i : Nat)
  | param (i : Nat) (n : Derivation .name) (j : Nat) (more : Listed .name)
  | paramNamed (i : Nat) (n : Derivation .name) (j : Nat) (ns : Derivation (.some .name))
  | arrow (ps : Params)
  | fieldName (signs : Signs) (i : Nat) (done : Listed .field)
  | fieldColon (signs : Signs) (i : Nat) (done : Listed .field) (n : Derivation .name)

inductive Statement where
  | body
  | declaration (n : Derivation .name) (i : Nat)

structure State where
  imports : List (Derivation .directive)
  declarations : Option (Derivation .declarations)
  statement : Statement
  stack : List Pending
  focus : Focus

def State.start : State := ⟨[], none, .body, [], .operand []⟩

/-- Completes every phrase around `e` that ends with it. -/
def closeExpr : Derivation .expr → List Pending → Derivation .expr × List Pending
  | e, .operator l op i :: fs => closeExpr (.binary l op i e) fs
  | e, .no i t j y k :: fs => closeExpr (.conditional i t j y k e) fs
  | e, .lambda h i :: fs => closeExpr (h.lambda i e) fs
  | e, fs => (e, fs)

/-- The arrow at `i` if its parentheses hold no lone name. -/
def Head.slip (i : Nat) : Head → Option Nat
  | .paren p => if p.meaning.lookup?.isSome then Option.none else some i
  | _ => Option.none

/-- The first such arrow among the functions that end together. -/
def firstSlip : List Pending → Option Nat
  | .operator _ _ _ :: fs => firstSlip fs
  | .no _ _ _ _ _ :: fs => firstSlip fs
  | .lambda h i :: fs => h.slip i <|> firstSlip fs
  | _ => none

/-- Completes the operators around `e` that bind at least as tightly as `level`. -/
def reduce (level : Nat) : Derivation .expr → List Pending → Derivation .expr × List Pending
  | e, .operator l op i :: fs =>
    if level ≤ op.level then reduce level (.binary l op i e) fs else (e, .operator l op i :: fs)
  | e, fs => (e, fs)

/-- The expression that ends with an operand, and the frames around it. -/
def closing (signs : Signs) (p : Derivation .suffixed) (fs : List Pending) :
    Derivation .expr × List Pending :=
  closeExpr (.operand (sign signs p)) fs

/-- The name that an operand is, if it is one. -/
def name? : Signs → Derivation .suffixed → Option (Derivation .name)
  | [], .primary (.lookup n) => some n
  | _, _ => none

/-- The parameters that an operand can be. -/
def head? : Signs → Derivation .suffixed → Option Head
  | [], .primary (.lookup n) => some (.one n)
  | [], .primary (.grouped p) => some (.paren p)
  | _, _ => none

/-- The focus after a sequence of expressions has been closed at `j`. -/
def Opening.close (items : Derivation (.items .expr)) (j : Nat) : Opening → Focus
  | .args signs fn i => .complete signs (.call fn i items j)
  | .list signs i => .complete signs (.primary (.list i items j))

/-- Takes a mark at `i` that closes what stands open right before it. -/
def State.closeEmpty (s : State) (signs : Signs) (m : Mark) (i : Nat) : Option State :=
  match signs, s.stack with
  | [], .group [] h :: fs =>
    if m = .closeParen then some { s with stack := fs, focus := .arrow (.none h i) } else none
  | [], .sequence o done :: fs =>
    if m = o.closer then some { s with stack := fs, focus := o.close done.items i } else none
  | _, _ => none

/-- Takes a lexeme at `i` where an operand begins. -/
def State.begin (s : State) (signs : Signs) (x : Lexeme) (i : Nat) : Option State :=
  let whole (p : Derivation .primary) : State := { s with focus := .complete signs (.primary p) }
  let enter (f : Pending) : State := { s with stack := f :: s.stack, focus := .operand [] }
  match x with
  | .literal c => some (whole (.literal c i))
  | .string t => some (whole (.string t i))
  | .name n => some (whole (.lookup (.name n i)))
  | .mark .openParen => some (enter (.group signs i))
  | .mark .openBracket => some (enter (.sequence (.list signs i) none))
  | .mark .openBrace => some { s with focus := .fieldName signs i none }
  | .mark .negate => some { s with focus := .operand ((.neg, i) :: signs) }
  | .mark .bang => some { s with focus := .operand ((.not, i) :: signs) }
  | .mark .ifWord => if signs = [] then some (enter (.test i)) else none
  | .mark m => s.closeEmpty signs m i

def declare (n : Derivation .name) (i : Nat) (e : Derivation .expr) :
    Option (Derivation .declarations) → Derivation .declarations
  | none => .firstDeclaration (.declaration n i e)
  | some ds => .moreDeclarations ds (.declaration n i e)

/-- Takes a lexeme that begins the statement after a declaration. -/
def State.nextStatement (s : State) (signs : Signs) (p : Derivation .suffixed) (x : Lexeme) (i : Nat) :
    Option (State × Option Nat) :=
  if !Parse.beginsExpr x then none else
  match s.statement, closing signs p s.stack with
  | .declaration n j, (e, []) =>
    (State.begin { s with
      declarations := some (declare n j e s.declarations), statement := .body, stack := [],
      focus := .operand [] } [] x i).map (·, firstSlip s.stack)
  | _, _ => none

/-- Takes a mark that ends an expression, or a part of what encloses it. -/
def State.close (s : State) (signs : Signs) (p : Derivation .suffixed) (m : Mark) (i : Nat) :
    Option (State × Option Nat) :=
  let (e, fs) := closing signs p s.stack
  let next (fs : List Pending) (f : Focus) : Option (State × Option Nat) :=
    some ({ s with stack := fs, focus := f }, firstSlip s.stack)
  match fs, m with
  | .test h :: fs, .thenWord => next (.yes h e i :: fs) (.operand [])
  | .yes h t j :: fs, .elseWord => next (.no h t j e i :: fs) (.operand [])
  | .group sg h :: fs, .closeParen => next fs (.complete sg (.primary (.grouped (.parens h e i))))
  | .subscript sg q h :: fs, .closeBracket => next fs (.complete sg (.subscript q h e i))
  | .field sg h done n j :: fs, .closeBrace =>
    next fs (.complete sg (.primary (.record h (.exactly (done.add (.field n j e))) i)))
  | .field sg h done n j :: fs, .comma => next fs (.fieldName sg h (some (done.add (.field n j e), i)))
  | .sequence o done :: fs, m =>
    if m = .comma then next (.sequence o (some (done.add e, i)) :: fs) (.operand [])
    else if m = o.closer then next fs (o.close (.exactly (done.add e)) i)
    else none
  | _, _ => none

/-- Takes a mark at `i` after an operand. -/
def State.continueMark (s : State) (signs : Signs) (p : Derivation .suffixed) (m : Mark) (i : Nat) :
    Option (State × Option Nat) :=
  let next (fs : List Pending) (f : Focus) : Option (State × Option Nat) :=
    some ({ s with stack := fs, focus := f }, none)
  match m with
  | .apply => next (.sequence (.args signs p i) none :: s.stack) (.operand [])
  | .index => next (.subscript signs p i :: s.stack) (.operand [])
  | .dot => next s.stack (.afterDot signs p i)
  | .arrow => (head? signs p).bind fun h => next (.lambda h i :: s.stack) (.operand [])
  | .assign =>
    match s.statement, s.stack, name? signs p with
    | .body, [], some n => some ({ s with statement := .declaration n i, focus := .operand [] }, none)
    | _, _, _ => none
  | .comma =>
    match s.stack, name? signs p with
    | .group [] h :: fs, some n => next fs (.param h n i none)
    | _, _ => s.close signs p .comma i
  | m =>
    match Operator.ofMark? m with
    | some op =>
      let (l, fs) := reduce op.level (.operand (sign signs p)) s.stack
      next (.operator l op i :: fs) (.operand [])
    | none =>
      if Parse.beginsExpr (.mark m) then s.nextStatement signs p (.mark m) i else s.close signs p m i

/-- An operator takes what binds at least as tightly as its left operand. -/
theorem State.continueMark_operator (s : State) (signs : Signs) (p : Derivation .suffixed)
    (op : Operator) (i : Nat) :
    s.continueMark signs p op.mark i =
      some ({ s with
        stack := .operator (reduce op.level (.operand (sign signs p)) s.stack).1 op i ::
          (reduce op.level (.operand (sign signs p)) s.stack).2,
        focus := .operand [] }, none) := by
  match op with
  | .connective .and | .connective .or => rfl
  | .binary .mul | .binary .div | .binary .mod | .binary .add | .binary .sub => rfl
  | .binary .eq | .binary .ne | .binary .lt | .binary .le | .binary .gt | .binary .ge => rfl

def State.continue (s : State) (signs : Signs) (p : Derivation .suffixed) (x : Lexeme) (i : Nat) :
    Option (State × Option Nat) :=
  match x with
  | .mark m => s.continueMark signs p m i
  | .string t =>
    match s.statement, s.stack, name? signs p, s.declarations with
    | .body, [], some n, none =>
      some ({ s with imports := s.imports ++ [.directive n t i], focus := .operand [] }, none)
    | _, _, _, _ => s.nextStatement signs p x i
  | x => s.nextStatement signs p x i

/-- Takes a lexeme at `i`. If parentheses before an arrow turn out to hold no lone name, the offset of the
arrow comes with the next state. -/
def State.step (s : State) (x : Lexeme) (i : Nat) : Option (State × Option Nat) :=
  let next (f : Focus) : Option (State × Option Nat) := some ({ s with focus := f }, none)
  match s.focus, x with
  | .operand signs, x => (s.begin signs x i).map (·, none)
  | .complete signs p, x => s.continue signs p x i
  | .afterDot signs p j, .name n => next (.complete signs (.member p j (.name n i)))
  | .param h n j more, .name m => next (.paramNamed h n j (more.add (.name m i)))
  | .paramNamed h n j ns, .mark .comma => next (.param h n j (some (ns, i)))
  | .paramNamed h n j ns, .mark .closeParen => next (.arrow (.many h n j ns i))
  | .arrow ps, .mark .arrow =>
    some ({ s with stack := .lambda (.params ps) i :: s.stack, focus := .operand [] }, none)
  | .fieldName signs h done, .name n => next (.fieldColon signs h done (.name n i))
  | .fieldName signs h done, .mark .closeBrace => next (.complete signs (.primary (.record h done.items i)))
  | .fieldColon signs h done n, .mark .colon =>
    some ({ s with stack := .field signs h done n i :: s.stack, focus := .operand [] }, none)
  | _, _ => none

/-- Takes tokens one after the other, and keeps the last state. -/
def State.run (s : State) : List Token → Option State
  | [] => some s
  | t :: ts => (s.step t.lexeme t.start).bind fun r => r.1.run ts

def statements : Option (Derivation .declarations) → Option (Derivation .expr) → Derivation .statements
  | none, none => .nothing
  | none, some e => .bodyOnly e
  | some ds, none => .declarationsOnly ds
  | some ds, some e => .declarationsBody ds e

/-- The module that imports, declarations and a body make. -/
def State.whole (s : State) (declarations : Option (Derivation .declarations))
    (body : Option (Derivation .expr)) : Derivation .module :=
  s.imports.foldr .importing (.plain (statements declarations body))

def State.finish (s : State) : Option (Derivation .module × Option Nat) :=
  match s.focus with
  | .operand [] =>
    match s.statement, s.stack with
    | .body, [] => some (s.whole s.declarations none, none)
    | _, _ => none
  | .complete signs p =>
    match s.statement, closing signs p s.stack with
    | .body, (e, []) => some (s.whole s.declarations (some e), firstSlip s.stack)
    | .declaration n i, (e, []) =>
      some (s.whole (some (declare n i e s.declarations)) none, firstSlip s.stack)
    | _, _ => none
  | _ => none

def build (ts : List Token) : Option (Derivation .module) :=
  ((State.start.run ts).bind State.finish).map Prod.fst

end LazyModules.Grammar
