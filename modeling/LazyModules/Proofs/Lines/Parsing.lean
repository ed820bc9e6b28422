import Mathlib.Order.MinMax
import LazyModules.Proofs.Lines.Scanning

/-!
# Parsing at other places

The machine copies offsets into what it builds and never looks at them. So tokens at other places lead to the same
trees at other places, and are refused at the other place of the same token.

**Results.** `step_relocate`, `feedAll_relocate`: what a token and a run of tokens do. `ofText_crlf`: the readings of
a text and of the text with CR LF for LF correspond.
-/
namespace LazyModules

/-! ## Trees at other places -/

section Relocate

variable (f : Nat → Nat)

mutual

/-- An expression at another place. -/
def Expr.relocate : Expr → Expr
  | .literal c s => .literal c (f s)
  | .lookup name s => .lookup name (f s)
  | .binary l op r s => .binary l.relocate op r.relocate (f s)
  | .shortcut l op r s => .shortcut l.relocate op r.relocate (f s)
  | .unary op a s => .unary op a.relocate (f s)
  | .call g as s => .call g.relocate (relocateAll as) (f s)
  | .field l name s => .field l.relocate name (f s)
  | .subscript l i s => .subscript l.relocate i.relocate (f s)
  | .cond t y n s => .cond t.relocate y.relocate n.relocate (f s)
  | .lambda params body s => .lambda params body.relocate (f s)
  | .list es s => .list (relocateAll es) (f s)
  | .record fs s => .record (relocateFields fs) (f s)

def relocateAll : List Expr → List Expr
  | [] => []
  | e :: es => e.relocate :: relocateAll es

def relocateFields : List (String × Expr) → List (String × Expr)
  | [] => []
  | (n, e) :: fs => (n, e.relocate) :: relocateFields fs

end

def Declaration.relocate (d : Declaration) : Declaration := { d with expr := d.expr.relocate f }

def ModuleSyntax.relocate (m : ModuleSyntax) : ModuleSyntax :=
  { m with declarations := m.declarations.map (Declaration.relocate f), body := m.body.map (Expr.relocate f) }

@[simp] theorem relocateAll_append (es es' : List Expr) :
    relocateAll f (es ++ es') = relocateAll f es ++ relocateAll f es' := by
  induction es with
  | nil => rfl
  | cons e es ih => simp [relocateAll, ih]

@[simp] theorem relocateFields_append (fs fs' : List (String × Expr)) :
    relocateFields f (fs ++ fs') = relocateFields f fs ++ relocateFields f fs' := by
  induction fs with
  | nil => rfl
  | cons p fs ih => simp [relocateFields, ih]

@[simp] theorem Expr.lookup?_relocate (e : Expr) : (e.relocate f).lookup? = e.lookup? := by
  cases e <;> rfl

namespace Parse

@[simp] theorem Operator.build_relocate (op : Operator) (l r : Expr) (s : Nat) :
    (op.build l r s).relocate f = op.build (l.relocate f) (r.relocate f) (f s) := by
  cases op <;> rfl

def Frame.relocate : Frame → Frame
  | .operator lhs op s => .operator (lhs.relocate f) op (f s)
  | .unary op s => .unary op (f s)
  | .test s => .test (f s)
  | .yes s t => .yes (f s) (t.relocate f)
  | .no s t y => .no (f s) (t.relocate f) (y.relocate f)
  | .lambda params arrow => .lambda params (f arrow)
  | .groupLambda inner arrow => .groupLambda (inner.relocate f) (f arrow)
  | .group begins => .group begins
  | .args fn s done => .args (fn.relocate f) (f s) (relocateAll f done)
  | .subscript lhs s => .subscript (lhs.relocate f) (f s)
  | .list s done => .list (f s) (relocateAll f done)
  | .field s done name => .field (f s) (relocateFields f done) name

def Focus.relocate : Focus → Focus
  | .operand => .operand
  | .complete e form => .complete (e.relocate f) form
  | .afterDot lhs => .afterDot (lhs.relocate f)
  | .param names => .param names
  | .paramNamed names => .paramNamed names
  | .arrow params => .arrow params
  | .fieldName s done => .fieldName (f s) (relocateFields f done)
  | .fieldColon s done name => .fieldColon (f s) (relocateFields f done) name

def State.relocate (s : State) : State where
  imports := s.imports
  declarations := s.declarations.map (Declaration.relocate f)
  statement := s.statement
  stack := s.stack.map (Frame.relocate f)
  focus := s.focus.relocate f
  settled := s.settled.map f

def Refusal.relocate : Refusal → Refusal
  | .unexpected => .unexpected
  | .misplacedArrow offset => .misplacedArrow (f offset)

def Halt.relocate (h : Halt) : Halt := ⟨f h.offset, h.settled.map f⟩

def Closed.relocate (c : Closed) : Closed := ⟨c.expr.relocate f, c.stack.map (Frame.relocate f), c.misplaced.map f⟩

/-- A step to a state or a refusal at another place. -/
def relocated : Except Refusal State → Except Refusal State
  | .ok s => .ok (s.relocate f)
  | .error r => .error (r.relocate f)

/-! ## Steps -/

theorem beginsPhrase_relocate (fs : List Frame) : beginsPhrase (fs.map (Frame.relocate f)) = beginsPhrase fs := by
  match fs with
  | [] => rfl
  | g :: fs => cases g <;> rfl

theorem reduceOperators_relocate (level : Nat) (e : Expr) (fs : List Frame) :
    reduceOperators level (e.relocate f) (fs.map (Frame.relocate f)) =
      ((reduceOperators level e fs).1.relocate f, (reduceOperators level e fs).2.map (Frame.relocate f)) := by
  induction fs generalizing e with
  | nil => rfl
  | cons g fs ih =>
    cases g with
    | unary op s => exact ih (.unary op e s)
    | operator lhs op s =>
      simp only [List.map_cons, Frame.relocate, reduceOperators]
      split
      · rw [← Operator.build_relocate, ih]
      · rfl
    | _ => rfl

theorem closePhrase_relocate (misplaced : Option Nat) (e : Expr) (fs : List Frame) :
    closePhrase (misplaced.map f) (e.relocate f) (fs.map (Frame.relocate f)) =
      (closePhrase misplaced e fs).relocate f := by
  induction fs generalizing misplaced e with
  | nil => rfl
  | cons g fs ih =>
    cases g with
    | unary op s => exact ih misplaced (.unary op e s)
    | operator lhs op s =>
      simp only [List.map_cons, Frame.relocate, closePhrase]
      rw [← Operator.build_relocate, ih]
    | no s test yes => exact ih misplaced (.cond test yes e s)
    | lambda params s => exact ih misplaced (.lambda params e s)
    | groupLambda inner s =>
      simp only [List.map_cons, Frame.relocate, closePhrase, Expr.lookup?_relocate]
      cases inner.lookup? with
      | some n => exact ih misplaced (.lambda [n] e s)
      | none =>
        have h := ih (misplaced <|> some s) (.lambda [] e s)
        cases misplaced <;> exact h
    | _ => rfl

theorem begin_relocate (s : State) (x : Lexeme) (start : Nat) :
    (s.relocate f).begin x (f start) = relocated f (s.begin x start) := by
  obtain ⟨imports, declarations, statement, stack, focus, settled⟩ := s
  cases x with
  | name n =>
    simp only [State.begin, State.relocate, beginsPhrase_relocate]
    rfl
  | literal c => rfl
  | string t => rfl
  | mark m =>
    cases m with
    | openParen =>
      simp only [State.begin, State.relocate, beginsPhrase_relocate]
      rfl
    | ifWord =>
      simp only [State.begin, State.relocate, beginsPhrase_relocate]
      split <;> rfl
    | closeParen =>
      cases stack with
      | nil => rfl
      | cons g fs =>
        cases g with
        | group begins => cases begins <;> rfl
        | _ => rfl
    | closeBracket =>
      cases stack with
      | nil => rfl
      | cons g fs => cases g <;> rfl
    | _ => rfl

theorem nextStatement_relocate (s : State) (e : Expr) (x : Lexeme) (start : Nat) :
    (s.relocate f).nextStatement (e.relocate f) x (f start) = relocated f (s.nextStatement e x start) := by
  obtain ⟨imports, declarations, statement, stack, focus, settled⟩ := s
  have hclosed := closePhrase_relocate f none e stack
  unfold State.nextStatement
  split
  · rfl
  · cases statement with
    | body => rfl
    | declaration n =>
      simp only [State.relocate, Option.map_none] at hclosed ⊢
      rw [hclosed]
      obtain ⟨e', stack', misplaced⟩ := closePhrase none e stack
      match stack', misplaced with
      | [], some offset => rfl
      | [], none =>
        simp only [Closed.relocate, List.map_nil, Option.map_none]
        rw [← begin_relocate]
        simp [State.relocate, Declaration.relocate, Focus.relocate]
      | _ :: _, _ => rfl

theorem close_relocate (s : State) (e : Expr) (m : Mark) :
    (s.relocate f).close (e.relocate f) m = relocated f (s.close e m) := by
  obtain ⟨imports, declarations, statement, stack, focus, settled⟩ := s
  have hclosed := closePhrase_relocate f none e stack
  simp only [State.close, State.relocate, Option.map_none] at hclosed ⊢
  rw [hclosed]
  obtain ⟨e', stack', misplaced⟩ := closePhrase none e stack
  cases m with
  | thenWord | elseWord | closeParen | closeBracket | closeBrace | comma =>
    match stack' with
    | [] => rfl
    | g :: fs =>
      cases g <;> cases misplaced <;>
        simp [Closed.relocate, Closed.accept, relocated, Frame.relocate, State.relocate, Focus.relocate, Expr.relocate,
          relocateAll, relocateFields, Refusal.relocate]
  | _ => rfl

theorem continueMark_relocate (s : State) (e : Expr) (form : Form) (m : Mark) (start : Nat) :
    (s.relocate f).continueMark (e.relocate f) form m (f start) = relocated f (s.continueMark e form m start) := by
  have hclose := close_relocate f s e m
  have hnext := nextStatement_relocate f s e (.mark m) start
  cases m with
  | apply | index | dot => rfl
  | arrow => cases form <;> cases e <;> rfl
  | assign =>
    obtain ⟨imports, declarations, statement, stack, focus, settled⟩ := s
    cases statement <;> cases stack <;> cases form <;> cases e <;> rfl
  | comma =>
    obtain ⟨imports, declarations, statement, stack, focus, settled⟩ := s
    match stack with
    | [] => exact hclose
    | .group true :: fs => cases form <;> cases e <;> rfl
    | .group false :: fs => exact hclose
    | .operator .. :: _ | .unary .. :: _ | .test .. :: _ | .yes .. :: _ | .no .. :: _ | .lambda .. :: _
    | .groupLambda .. :: _ | .args .. :: _ | .subscript .. :: _ | .list .. :: _ | .field .. :: _ => exact hclose
  | openParen | openBracket | openBrace | negate | bang | ifWord => exact hnext
  | thenWord | elseWord | closeParen | closeBracket | closeBrace | colon => exact hclose
  | star | slash | percent | plus | minus | equal | unequal | less | atMost | greater | atLeast | both | either =>
    have hreduce (level : Nat) := reduceOperators_relocate f level e s.stack
    simp only [State.continueMark, Operator.ofMark?, State.relocate, hreduce]
    rfl

theorem continue_relocate (s : State) (e : Expr) (form : Form) (x : Lexeme) (start : Nat) :
    (s.relocate f).continue (e.relocate f) form x (f start) = relocated f (s.continue e form x start) := by
  have hnext := nextStatement_relocate f s e x start
  cases x with
  | mark m => exact continueMark_relocate f s e form m start
  | name n => exact hnext
  | literal c => exact hnext
  | string t =>
    obtain ⟨imports, declarations, statement, stack, focus, settled⟩ := s
    cases statement <;> cases stack <;> cases form <;> cases e <;> cases declarations <;> first | rfl | exact hnext

theorem step_relocate (s : State) (x : Lexeme) (start : Nat) :
    (s.relocate f).step x (f start) = relocated f (s.step x start) := by
  obtain ⟨imports, declarations, statement, stack, focus, settled⟩ := s
  cases focus with
  | operand => exact begin_relocate f _ x start
  | complete e form => exact continue_relocate f _ e form x start
  | afterDot _ | param _ | paramNamed _ | arrow _ | fieldName _ _ | fieldColon _ _ _ =>
    cases x with
    | mark m => cases m <;> rfl
    | _ => rfl

/-! ## Whole texts -/

/-- An end of reading at another place. -/
def ended {α : Type} (move : α → α) : Except Halt α → Except Halt α
  | .ok a => .ok (move a)
  | .error h => .error (h.relocate f)

theorem feed_relocate (s : State) (t : Token) :
    (s.relocate f).feed (t.relocate f) = ended f (State.relocate f) (s.feed t) := by
  obtain ⟨x, start⟩ := t
  obtain ⟨imports, declarations, statement, stack, focus, settled⟩ := s
  have hsettled : (settled.map f <|> some (f start)) = (settled <|> some start).map f := by cases settled <;> rfl
  have hstep := step_relocate f ⟨imports, declarations, statement, stack, focus, settled <|> some start⟩ x start
  simp only [State.feed, State.relocate, Token.relocate, hsettled] at hstep ⊢
  rw [hstep]
  generalize State.step _ x start = r
  cases r with
  | ok s' => rfl
  | error x => cases x <;> rfl

theorem feedAll_relocate (s : State) (ts : List Token) :
    (s.relocate f).feedAll (ts.map (Token.relocate f)) = ended f (State.relocate f) (s.feedAll ts) := by
  induction ts generalizing s with
  | nil => rfl
  | cons t ts ih =>
    rw [List.map_cons, State.feedAll, State.feedAll, feed_relocate]
    cases s.feed t with
    | ok s' => exact ih s'
    | error h => rfl

theorem finish_relocate (s : State) (length : Nat) :
    (s.relocate f).finish (f length) = ended f (ModuleSyntax.relocate f) (s.finish length) := by
  obtain ⟨imports, declarations, statement, stack, focus, settled⟩ := s
  cases focus with
  | operand => cases statement <;> cases stack <;> rfl
  | complete e form =>
    have hclosed := closePhrase_relocate f none e stack
    simp only [State.finish, State.relocate, Focus.relocate, Option.map_none] at hclosed ⊢
    rw [hclosed]
    obtain ⟨e', stack', misplaced⟩ := closePhrase none e stack
    cases stack' with
    | cons g fs => rfl
    | nil =>
      cases misplaced with
      | some offset => rfl
      | none =>
        cases statement with
        | body => rfl
        | declaration n => simp [Closed.relocate, ended, ModuleSyntax.relocate, Declaration.relocate]
  | afterDot _ | param _ | paramNamed _ | arrow _ | fieldName _ _ | fieldColon _ _ _ => rfl

end Parse

def Verdict.relocate : Verdict → Verdict
  | .accepted m => .accepted (m.relocate f)
  | .refused => .refused
  | .broken x => .broken x

end Relocate

namespace Reading

open Text (crlf crlfOffset)

/-- How the reading `r` of a text and the reading `r'` of the text with CR LF for LF correspond: the verdicts do, and
the places from which on the texts are unread. -/
structure Corresponds (cs : List Char) (r r' : Reading) : Prop where
  verdict : r'.verdict = r.verdict.relocate (crlfOffset cs)
  rest : ∃ i ≤ cs.length, r.rest = String.ofList (cs.drop i) ∧
    r'.rest = String.ofList ((crlf cs).drop (crlfOffset cs i))
  shortest : r.shortest = none ∧ r'.shortest = none ∨ ∃ i ≤ cs.length,
    r.shortest = some (String.ofList (cs.drop i)) ∧ r'.shortest = some (String.ofList ((crlf cs).drop (crlfOffset cs i)))

theorem unread_crlf (cs : List Char) (i : Nat) : ∃ j ≤ cs.length, cs.drop i = cs.drop j ∧
    (crlf cs).drop (crlfOffset cs i) = (crlf cs).drop (crlfOffset cs j) := by
  by_cases hi : i ≤ cs.length
  · exact ⟨i, hi, rfl, rfl⟩
  · refine ⟨cs.length, Nat.le_refl _, ?_, ?_⟩
    · rw [List.drop_length, List.drop_eq_nil_of_le (by omega)]
    · have hlt := Text.crlfOffset_strictMono cs (Nat.lt_of_not_le hi)
      rw [Text.crlfOffset_length] at hlt ⊢
      rw [List.drop_length, List.drop_eq_nil_of_le hlt.le]

theorem stopped_crlf (cs : List Char) (h : Parse.Halt) :
    Corresponds cs (stopped cs h.offset h.settled)
      (stopped (crlf cs) (h.relocate (crlfOffset cs)).offset (h.relocate (crlfOffset cs)).settled) := by
  obtain ⟨offset, settled⟩ := h
  have hmin : min ((settled.map (crlfOffset cs)).getD (crlfOffset cs offset)) (crlfOffset cs offset) =
      crlfOffset cs (min (settled.getD offset) offset) := by
    rw [Option.getD_map]
    exact ((Text.crlfOffset_strictMono cs).monotone.map_min).symm
  obtain ⟨i, hi, hlf, hcrlf⟩ := unread_crlf cs (min (settled.getD offset) offset)
  obtain ⟨j, hj, hlf', hcrlf'⟩ := unread_crlf cs offset
  refine ⟨rfl, ⟨i, hi, ?_, ?_⟩, .inr ⟨j, hj, ?_, ?_⟩⟩
  · simp only [stopped, hlf]
  · simp only [stopped, Parse.Halt.relocate, hmin, hcrlf]
  · simp only [stopped, hlf']
  · simp only [stopped, Parse.Halt.relocate, hcrlf']

/-- The readings of a text and of the text with CR LF for LF correspond. -/
theorem ofText_crlf (text : String) :
    Corresponds text.toList (ofText text) (ofText (String.ofList (crlf text.toList))) := by
  have hfeed := Parse.feedAll_relocate (crlfOffset text.toList) .start (Scan.scan text.toList).tokens
  have hfinish (s : Parse.State) := Parse.finish_relocate (crlfOffset text.toList) s text.toList.length
  rw [Text.crlfOffset_length] at hfinish
  have hstart : Parse.State.start.relocate (crlfOffset text.toList) = .start := rfl
  rw [hstart] at hfeed
  simp only [ofText, String.toList_ofList, Scan.scan_crlf, Scan.Result.relocate, hfeed]
  cases Parse.State.start.feedAll (Scan.scan text.toList).tokens with
  | error h => exact stopped_crlf text.toList h
  | ok s =>
    cases (Scan.scan text.toList).stop with
    | blocked offset => exact stopped_crlf text.toList ⟨offset, s.settled⟩
    | fault x =>
      refine ⟨rfl, ⟨0, Nat.zero_le _, ?_, rfl⟩, .inl ⟨rfl, rfl⟩⟩
      exact (String.ofList_toList).symm
    | ended =>
      simp only [Parse.ended, Scan.Stop.relocate, hfinish]
      cases s.finish text.toList.length with
      | error h => exact stopped_crlf text.toList h
      | ok m =>
        have hend : crlfOffset text.toList text.toList.length = (crlf text.toList).length := Text.crlfOffset_length _
        refine ⟨rfl, ⟨_, Nat.le_refl _, ?_, ?_⟩, .inr ⟨_, Nat.le_refl _, ?_, ?_⟩⟩
        · rw [List.drop_length]
        · rw [hend, List.drop_length]
        · rw [List.drop_length]
        · rw [hend, List.drop_length]

end Reading

end LazyModules
