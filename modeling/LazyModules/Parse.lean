import LazyModules.Expr

/-!
# From tokens to a module

The grammar is read by a machine that takes one token at a time. Its state is a stack of frames, one for
each phrase that is not finished yet, and a focus that says what may come next. A token either leads to
the next state or is refused, and a refused token changes nothing: the machine stops at the first token
that cannot follow what went before.

* Binary operators group to the left, by five levels of precedence.
* The parts after `else` and after `=>` reach as far right as they can.
* Postfix forms (call, field, index) bind tighter than the unary operators, and those tighter than the
  binary ones.
* Only a lone name, no name, or several names may stand in parentheses before an arrow. That a group
  holds something else is noticed when the function's body is complete, which is when a token that can
  follow it has come.

`State.settled` is where the statement in progress began: an import is complete with its string, a
declaration once a token that can follow it has come.
-/
namespace LazyModules.Parse

inductive Operator where
  | binary (op : BinaryOp)
  | connective (op : Connective)
  deriving DecidableEq, Repr

/-- How tightly an operator binds; a greater level is tighter. -/
def Operator.level : Operator → Nat
  | .binary .mul | .binary .div | .binary .mod => 5
  | .binary .add | .binary .sub => 4
  | .binary .eq | .binary .ne | .binary .lt | .binary .le | .binary .gt | .binary .ge => 3
  | .connective .and => 2
  | .connective .or => 1

def Operator.ofMark? : Mark → Option Operator
  | .star => some (.binary .mul)
  | .slash => some (.binary .div)
  | .percent => some (.binary .mod)
  | .plus => some (.binary .add)
  | .minus => some (.binary .sub)
  | .equal => some (.binary .eq)
  | .unequal => some (.binary .ne)
  | .less => some (.binary .lt)
  | .atMost => some (.binary .le)
  | .greater => some (.binary .gt)
  | .atLeast => some (.binary .ge)
  | .both => some (.connective .and)
  | .either => some (.connective .or)
  | _ => none

/-- The expression of an operator at `start` and its operands. -/
def Operator.build (op : Operator) (lhs rhs : Expr) (start : Nat) : Expr :=
  match op with
  | .binary op => .binary lhs op rhs start
  | .connective op => .shortcut lhs op rhs start

/-- An unfinished phrase: what has been read of it up to the expression that is being read now. -/
inductive Frame where
  /-- `lhs op _` -/
  | operator (lhs : Expr) (op : Operator) (start : Nat)
  /-- `op _` -/
  | unary (op : UnaryOp) (start : Nat)
  /-- `if _` -/
  | test (start : Nat)
  /-- `if test then _` -/
  | yes (start : Nat) (test : Expr)
  /-- `if test then yes else _` -/
  | no (start : Nat) (test yes : Expr)
  /-- `params => _` -/
  | lambda (params : List String) (arrow : Nat)
  /-- `(inner) => _` -/
  | groupLambda (inner : Expr) (arrow : Nat)
  /-- `( _`; `begins` if a function could begin at the parenthesis -/
  | group (begins : Bool)
  /-- `fn( done, _` -/
  | args (fn : Expr) (start : Nat) (done : List Expr)
  /-- `lhs[ _` -/
  | subscript (lhs : Expr) (start : Nat)
  /-- `[ done, _` -/
  | list (start : Nat) (done : List Expr)
  /-- `{ done, name: _` -/
  | field (start : Nat) (done : List (String × Expr)) (name : String)

/-- What an operand at hand could still turn into: a bare name or a group where a function can begin
may be followed by an arrow. -/
inductive Form where
  | name
  | group
  | other
  deriving DecidableEq, Repr

/-- What may come next. -/
inductive Focus where
  /-- an expression begins -/
  | operand
  /-- an operand has been read -/
  | complete (e : Expr) (form : Form)
  /-- after the dot of a field reference -/
  | afterDot (lhs : Expr)
  /-- after a comma in a parameter list -/
  | param (names : List String)
  /-- after a name in a parameter list that has at least two -/
  | paramNamed (names : List String)
  /-- after a parameter list: the arrow -/
  | arrow (params : List String)
  /-- in a record, before a name or the end -/
  | fieldName (start : Nat) (done : List (String × Expr))
  /-- in a record, after a name -/
  | fieldColon (start : Nat) (done : List (String × Expr)) (name : String)

/-- The statement that is being read. What may be the body may also turn out an import or a
declaration. -/
inductive Statement where
  | body
  | declaration (name : String)
  deriving DecidableEq, Repr

structure State where
  imports : List Import
  declarations : List Declaration
  statement : Statement
  stack : List Frame
  focus : Focus
  settled : Option Nat

def State.start : State := ⟨[], [], .body, [], .operand, some 0⟩

/-- Why a token is not taken. -/
inductive Refusal where
  /-- it cannot follow what went before -/
  | unexpected
  /-- it can, but the group before the arrow at `offset` is no parameter list -/
  | misplacedArrow (offset : Nat)
  deriving DecidableEq, Repr

/-- Whether a function or a conditional may begin here: anywhere but right after a unary operator. -/
def beginsPhrase : List Frame → Bool
  | .unary _ _ :: _ => false
  | _ => true

/-- Completes the phrases that bind at least as tightly as `level` around the operand `e`. -/
def reduceOperators (level : Nat) : Expr → List Frame → Expr × List Frame
  | e, .unary op s :: fs => reduceOperators level (.unary op e s) fs
  | e, .operator lhs op s :: fs =>
    if level ≤ op.level then reduceOperators level (op.build lhs e s) fs
    else (e, .operator lhs op s :: fs)
  | e, fs => (e, fs)

/-- An expression, the frames around it, and the arrow of the first function in it, by completion, whose
group is no parameter list. -/
structure Closed where
  expr : Expr
  stack : List Frame
  misplaced : Option Nat

/-- Completes every phrase around `e` that ends with it. -/
def closePhrase (misplaced : Option Nat) : Expr → List Frame → Closed
  | e, .unary op s :: fs => closePhrase misplaced (.unary op e s) fs
  | e, .operator lhs op s :: fs => closePhrase misplaced (op.build lhs e s) fs
  | e, .no s test yes :: fs => closePhrase misplaced (.cond test yes e s) fs
  | e, .lambda params s :: fs => closePhrase misplaced (.lambda params e s) fs
  | e, .groupLambda inner s :: fs =>
    match inner.lookup? with
    | some n => closePhrase misplaced (.lambda [n] e s) fs
    | none => closePhrase (misplaced <|> some s) (.lambda [] e s) fs
  | e, fs => ⟨e, fs, misplaced⟩

/-- Goes on from a closed phrase unless it holds a misplaced arrow. -/
def Closed.accept (c : Closed) (s : State) : Except Refusal State :=
  match c.misplaced with
  | some offset => .error (.misplacedArrow offset)
  | none => .ok s

/-- Takes a lexeme at `start` where an expression begins. -/
def State.begin (s : State) (x : Lexeme) (start : Nat) : Except Refusal State :=
  let whole (e : Expr) : Except Refusal State := .ok { s with focus := .complete e .other }
  let enter (f : Frame) : Except Refusal State := .ok { s with stack := f :: s.stack, focus := .operand }
  match x with
  | .literal c => whole (.literal c start)
  | .string t => whole (.literal (.text t) start)
  | .name n =>
    .ok { s with focus := .complete (.lookup n start) (if beginsPhrase s.stack then .name else .other) }
  | .mark .openParen => enter (.group (beginsPhrase s.stack))
  | .mark .openBracket => enter (.list start [])
  | .mark .openBrace => .ok { s with focus := .fieldName start [] }
  | .mark .negate => enter (.unary .neg start)
  | .mark .bang => enter (.unary .not start)
  | .mark .ifWord => if beginsPhrase s.stack then enter (.test start) else .error .unexpected
  | .mark .closeParen =>
    match s.stack with
    | .group true :: fs => .ok { s with stack := fs, focus := .arrow [] }
    | .args fn p done :: fs => .ok { s with stack := fs, focus := .complete (.call fn done p) .other }
    | _ => .error .unexpected
  | .mark .closeBracket =>
    match s.stack with
    | .list p done :: fs => .ok { s with stack := fs, focus := .complete (.list done p) .other }
    | _ => .error .unexpected
  | _ => .error .unexpected

def beginsExpr : Lexeme → Bool
  | .name _ | .literal _ | .string _ => true
  | .mark m => m = .openParen || m = .openBracket || m = .openBrace || m = .negate || m = .bang ||
      m = .ifWord

/-- Takes a lexeme that begins the statement after a declaration whose expression ends with `e`. -/
def State.nextStatement (s : State) (e : Expr) (x : Lexeme) (start : Nat) : Except Refusal State :=
  if !beginsExpr x then .error .unexpected else
  match s.statement with
  | .body => .error .unexpected
  | .declaration n =>
    let c := closePhrase none e s.stack
    match c.stack with
    | [] =>
      match c.misplaced with
      | some offset => .error (.misplacedArrow offset)
      | none =>
        State.begin { s with
          declarations := s.declarations ++ [⟨n, c.expr⟩], statement := .body, stack := [],
          focus := .operand, settled := some start } x start
    | _ :: _ => .error .unexpected

/-- Takes a mark that ends the expression with operand `e`, or a part of what encloses it. -/
def State.close (s : State) (e : Expr) (m : Mark) : Except Refusal State :=
  let c := closePhrase none e s.stack
  let e := c.expr
  match m, c.stack with
  | .thenWord, .test p :: fs => c.accept { s with stack := .yes p e :: fs, focus := .operand }
  | .elseWord, .yes p test :: fs => c.accept { s with stack := .no p test e :: fs, focus := .operand }
  | .closeParen, .group begins :: fs =>
    c.accept { s with stack := fs, focus := .complete e (if begins then .group else .other) }
  | .closeParen, .args fn p done :: fs =>
    c.accept { s with stack := fs, focus := .complete (.call fn (done ++ [e]) p) .other }
  | .closeBracket, .subscript lhs p :: fs =>
    c.accept { s with stack := fs, focus := .complete (.subscript lhs e p) .other }
  | .closeBracket, .list p done :: fs =>
    c.accept { s with stack := fs, focus := .complete (.list (done ++ [e]) p) .other }
  | .closeBrace, .field p done n :: fs =>
    c.accept { s with stack := fs, focus := .complete (.record (done ++ [(n, e)]) p) .other }
  | .comma, .args fn p done :: fs =>
    c.accept { s with stack := .args fn p (done ++ [e]) :: fs, focus := .operand }
  | .comma, .list p done :: fs =>
    c.accept { s with stack := .list p (done ++ [e]) :: fs, focus := .operand }
  | .comma, .field p done n :: fs =>
    c.accept { s with stack := fs, focus := .fieldName p (done ++ [(n, e)]) }
  | _, _ => .error .unexpected

/-- Takes a mark at `start` after the operand `e`. -/
def State.continueMark (s : State) (e : Expr) (form : Form) (m : Mark) (start : Nat) :
    Except Refusal State :=
  match m with
  | .apply => .ok { s with stack := .args e start [] :: s.stack, focus := .operand }
  | .index => .ok { s with stack := .subscript e start :: s.stack, focus := .operand }
  | .dot => .ok { s with focus := .afterDot e }
  | .arrow =>
    match form, e with
    | .name, .lookup n _ => .ok { s with stack := .lambda [n] start :: s.stack, focus := .operand }
    | .group, _ => .ok { s with stack := .groupLambda e start :: s.stack, focus := .operand }
    | _, _ => .error .unexpected
  | .assign =>
    match s.statement, s.stack, form, e with
    | .body, [], .name, .lookup n _ => .ok { s with statement := .declaration n, focus := .operand }
    | _, _, _, _ => .error .unexpected
  | .comma =>
    match s.stack, form, e with
    | .group true :: fs, .name, .lookup n _ => .ok { s with stack := fs, focus := .param [n] }
    | _, _, _ => s.close e .comma
  | m =>
    match Operator.ofMark? m with
    | some op =>
      let (lhs, fs) := reduceOperators op.level e s.stack
      .ok { s with stack := .operator lhs op start :: fs, focus := .operand }
    | none => if beginsExpr (.mark m) then s.nextStatement e (.mark m) start else s.close e m

/-- Takes a lexeme at `start` after the operand `e`. -/
def State.continue (s : State) (e : Expr) (form : Form) (x : Lexeme) (start : Nat) :
    Except Refusal State :=
  match x with
  | .mark m => s.continueMark e form m start
  | .string t =>
    match s.statement, s.stack, form, e, s.declarations with
    | .body, [], .name, .lookup n _, [] =>
      .ok { s with imports := s.imports ++ [⟨n, t⟩], focus := .operand, settled := none }
    | _, _, _, _, _ => s.nextStatement e x start
  | x => s.nextStatement e x start

def State.step (s : State) (x : Lexeme) (start : Nat) : Except Refusal State :=
  match s.focus with
  | .operand => s.begin x start
  | .complete e form => s.continue e form x start
  | .afterDot lhs =>
    match x with
    | .name n => .ok { s with focus := .complete (.field lhs n start) .other }
    | _ => .error .unexpected
  | .param names =>
    match x with
    | .name n => .ok { s with focus := .paramNamed (names ++ [n]) }
    | _ => .error .unexpected
  | .paramNamed names =>
    match x with
    | .mark .comma => .ok { s with focus := .param names }
    | .mark .closeParen => .ok { s with focus := .arrow names }
    | _ => .error .unexpected
  | .arrow params =>
    match x with
    | .mark .arrow => .ok { s with stack := .lambda params start :: s.stack, focus := .operand }
    | _ => .error .unexpected
  | .fieldName p done =>
    match x with
    | .name n => .ok { s with focus := .fieldColon p done n }
    | .mark .closeBrace => .ok { s with focus := .complete (.record done p) .other }
    | _ => .error .unexpected
  | .fieldColon p done n =>
    match x with
    | .mark .colon => .ok { s with stack := .field p done n :: s.stack, focus := .operand }
    | _ => .error .unexpected

/-- Where reading stopped, and where the statement in progress began if any of it had been seen. -/
structure Halt where
  offset : Nat
  settled : Option Nat
  deriving DecidableEq, Repr

/-- Takes a token. It is the first of its statement if none was settled before. -/
def State.feed (s : State) (t : Token) : Except Halt State :=
  let s := { s with settled := s.settled <|> some t.start }
  match s.step t.lexeme t.start with
  | .ok s => .ok s
  | .error .unexpected => .error ⟨t.start, s.settled⟩
  | .error (.misplacedArrow offset) => .error ⟨offset, s.settled⟩

def State.feedAll (s : State) : List Token → Except Halt State
  | [] => .ok s
  | t :: ts => match s.feed t with
    | .ok s => s.feedAll ts
    | .error h => .error h

/-- Takes the end of the text, which has `length` characters. -/
def State.finish (s : State) (length : Nat) : Except Halt ModuleSyntax :=
  match s.focus with
  | .operand =>
    match s.statement, s.stack with
    | .body, [] => .ok ⟨s.imports, s.declarations, none⟩
    | _, _ => .error ⟨length, s.settled⟩
  | .complete e _ =>
    let c := closePhrase none e s.stack
    match c.stack, c.misplaced, s.statement with
    | _ :: _, _, _ => .error ⟨length, s.settled⟩
    | [], some offset, _ => .error ⟨offset, s.settled⟩
    | [], none, .body => .ok ⟨s.imports, s.declarations, some c.expr⟩
    | [], none, .declaration n => .ok ⟨s.imports, s.declarations ++ [⟨n, c.expr⟩], none⟩
  | _ => .error ⟨length, s.settled⟩

end LazyModules.Parse
