import LazyModules.Proofs.Grammar.Soundness

/-!
# The two machines

What the machine of `Parse` holds is what the parse actions make of what the builder holds (`image`). Step
by step they take the same tokens, except that the machine of `Parse` stops where parentheses before an
arrow hold no lone name.

* `step_agrees`, `feed_agrees`: a token.
* `finish_agrees`: the end of the tokens.
-/
namespace LazyModules.Grammar

open Parse (Operator Form)

/-! ## What the builder's state stands for -/

@[simp] def Params.names : Params → List String
  | .none _ _ => []
  | .many _ n _ ns _ => n.meaning.1 :: ns.meaning.map Prod.fst

@[simp] def Head.frame (i : Nat) : Head → Parse.Frame
  | .one n => .lambda [n.meaning.1] i
  | .paren p => .groupLambda p.meaning i
  | .params ps => .lambda ps.names i

def Listed.meaning {x : Phrase} : Listed x → List x.Meaning
  | none => []
  | some (s, _) => s.meaning

theorem meaning_items {x : Phrase} (done : Listed x) : done.items.meaning = done.meaning := by
  match done with
  | none => simp [Listed.items, Listed.meaning]
  | some (s, i) => simp [Listed.items, Listed.meaning]

theorem meaning_add {x : Phrase} (done : Listed x) (d : Derivation x) :
    (done.add d).meaning = done.meaning ++ [d.meaning] := by
  match done with
  | none => simp [Listed.add, Listed.meaning]
  | some (s, i) => simp [Listed.add, Listed.meaning]

@[simp] def signFrames : Signs → List Parse.Frame
  | [] => []
  | (op, i) :: signs => .unary op i :: signFrames signs

@[simp] def Opening.frames (done : List Expr) : Opening → List Parse.Frame
  | .args signs fn i => .args fn.meaning i done :: signFrames signs
  | .list signs i => .list i done :: signFrames signs

@[simp] def Pending.frames : Pending → List Parse.Frame
  | .operator l op i => [.operator l.meaning op i]
  | .test i => [.test i]
  | .yes i t _ => [.yes i t.meaning]
  | .no i t _ y _ => [.no i t.meaning y.meaning]
  | .lambda h i => [h.frame i]
  | .group signs _ => .group signs.isEmpty :: signFrames signs
  | .sequence o done => o.frames done.meaning
  | .subscript signs p i => .subscript p.meaning i :: signFrames signs
  | .field signs i done n _ => .field i done.meaning n.meaning.1 :: signFrames signs

@[simp] def stackFrames : List Pending → List Parse.Frame
  | [] => []
  | f :: fs => f.frames ++ stackFrames fs

/-- What an operand without signs could still turn into. -/
@[simp] def shape : Derivation .suffixed → Form
  | .primary (.lookup _) => .name
  | .primary (.grouped _) => .group
  | _ => .other

def form (signs : Signs) (p : Derivation .suffixed) : Form := if signs.isEmpty then shape p else .other

@[simp] def Focus.signs : Focus → Signs
  | .operand signs | .complete signs _ | .afterDot signs _ _ => signs
  | .fieldName signs _ _ | .fieldColon signs _ _ _ => signs
  | _ => []

@[simp] def Focus.image : Focus → Parse.Focus
  | .operand _ => .operand
  | .complete signs p => .complete p.meaning (form signs p)
  | .afterDot _ p _ => .afterDot p.meaning
  | .param _ n _ more => .param (n.meaning.1 :: more.meaning.map Prod.fst)
  | .paramNamed _ n _ ns => .paramNamed (n.meaning.1 :: ns.meaning.map Prod.fst)
  | .arrow ps => .arrow ps.names
  | .fieldName _ i done => .fieldName i done.meaning
  | .fieldColon _ i done n => .fieldColon i done.meaning n.meaning.1

@[simp] def Statement.image : Statement → Parse.Statement
  | .body => .body
  | .declaration n _ => .declaration n.meaning.1

/-- The declarations so far, as the machine of `Parse` keeps them. -/
def declared (ds : Option (Derivation .declarations)) : List Declaration :=
  (ds.map Derivation.meaning).getD []

/-- The state of the machine of `Parse` that a state of the builder stands for. -/
def State.image (s : State) (settled : Option Nat) : Parse.State where
  imports := s.imports.map Derivation.meaning
  declarations := declared s.declarations
  statement := s.statement.image
  stack := signFrames s.focus.signs ++ stackFrames s.stack
  focus := s.focus.image
  settled := settled

/-- One machine does with a token what the other does, up to where the statement is taken to begin. -/
@[simp] def Agrees (r : Except Parse.Refusal Parse.State) : Option (State × Option Nat) → Prop
  | none => r = .error .unexpected
  | some (s, none) => ∃ settled, r = .ok (s.image settled)
  | some (_, some i) => r = .error (.misplacedArrow i)

/-! ## Closing phrases -/

theorem closePhrase_signs (mis : Option Nat) (signs : Signs) (u : Derivation .unary)
    (fs : List Parse.Frame) :
    Parse.closePhrase mis u.meaning (signFrames signs ++ fs) =
      Parse.closePhrase mis (signs.foldl (fun u s => .signed s.1 s.2 u) u).meaning fs := by
  induction signs generalizing u with
  | nil => rfl
  | cons s signs ih =>
    have h := ih (.signed s.1 s.2 u)
    simpa [Parse.closePhrase, Derivation.meaning] using h

theorem closePhrase_lambda (mis : Option Nat) (e : Derivation .expr) (h : Head) (i : Nat)
    (fs : List Parse.Frame) :
    Parse.closePhrase mis e.meaning (h.frame i :: fs) =
      Parse.closePhrase (mis <|> h.slip i) (h.lambda i e).meaning fs := by
  match h with
  | .one _ => simp [Head.slip, Head.lambda, Parse.closePhrase]
  | .params (.none _ _) => simp [Head.slip, Head.lambda, Parse.closePhrase]
  | .params (.many _ _ _ _ _) =>
    simp [Head.slip, Head.lambda, Parse.closePhrase]
  | .paren p =>
    cases hp : Expr.lookup? p.meaning <;>
      simp [Head.slip, Head.lambda, Parse.closePhrase, hp]

theorem closePhrase_stack (mis : Option Nat) (e : Derivation .expr) (fs : List Pending) :
    Parse.closePhrase mis e.meaning (stackFrames fs) =
      ⟨(closeExpr e fs).1.meaning, stackFrames (closeExpr e fs).2, mis <|> firstSlip fs⟩ := by
  fun_induction closeExpr e fs generalizing mis with
  | case1 e l op i fs ih => exact ih mis
  | case2 e i t j y k fs ih => exact ih mis
  | case3 e h i fs ih =>
    rw [show stackFrames (.lambda h i :: fs) = h.frame i :: stackFrames fs from rfl,
      closePhrase_lambda, ih]
    simp [firstSlip, Option.or_assoc]
  | case4 e fs h₁ h₂ h₃ =>
    cases fs with
    | nil => simp [Parse.closePhrase, firstSlip]
    | cons f fs =>
      cases f with
      | operator l op i => exact absurd rfl (h₁ l op i fs)
      | no i t j y k => exact absurd rfl (h₂ i t j y k fs)
      | lambda h i => exact absurd rfl (h₃ h i fs)
      | sequence o done =>
        cases o <;> simp [Parse.closePhrase, firstSlip]
      | _ => simp [Parse.closePhrase, firstSlip]

/-- Closing an operand: both machines close the same phrases. -/
theorem closePhrase_closing (signs : Signs) (p : Derivation .suffixed) (fs : List Pending) :
    Parse.closePhrase none p.meaning (signFrames signs ++ stackFrames fs) =
      ⟨(closing signs p fs).1.meaning, stackFrames (closing signs p fs).2, firstSlip fs⟩ := by
  have h₁ := closePhrase_signs none signs (.unsigned p) (stackFrames fs)
  have h₂ := closePhrase_stack none (.operand (sign signs p)) fs
  simp only [Derivation.meaning] at h₁ h₂
  rw [h₁]
  simpa [closing, sign] using h₂

theorem reduceOperators_signs (level : Nat) (signs : Signs) (u : Derivation .unary)
    (fs : List Parse.Frame) :
    Parse.reduceOperators level u.meaning (signFrames signs ++ fs) =
      Parse.reduceOperators level (signs.foldl (fun u s => .signed s.1 s.2 u) u).meaning fs := by
  induction signs generalizing u with
  | nil => rfl
  | cons s signs ih =>
    have h := ih (.signed s.1 s.2 u)
    simpa [Parse.reduceOperators] using h

theorem reduceOperators_stack (level : Nat) (e : Derivation .expr) (fs : List Pending) :
    Parse.reduceOperators level e.meaning (stackFrames fs) =
      ((reduce level e fs).1.meaning, stackFrames (reduce level e fs).2) := by
  fun_induction reduce level e fs with
  | case1 e l op i fs h ih =>
    rw [← ih]
    simp [Parse.reduceOperators, h]
  | case2 e l op i fs h => simp [Parse.reduceOperators, h]
  | case3 e fs h =>
    cases fs with
    | nil => simp [Parse.reduceOperators]
    | cons f fs =>
      cases f with
      | operator l op i => exact absurd rfl (h l op i fs)
      | lambda hd i => cases hd <;> simp [Parse.reduceOperators]
      | sequence o done =>
        cases o <;> simp [Parse.reduceOperators]
      | _ => simp [Parse.reduceOperators]

/-! ## Taking a token -/

theorem beginsPhrase_frames (signs : Signs) (fs : List Pending) :
    Parse.beginsPhrase (signFrames signs ++ stackFrames fs) = signs.isEmpty := by
  cases signs with
  | cons s signs => rfl
  | nil =>
    cases fs with
    | nil => rfl
    | cons f fs =>
      match f with
      | .lambda (.one _) _ | .lambda (.paren _) _ | .lambda (.params _) _ => rfl
      | .sequence (.args _ _ _) _ | .sequence (.list _ _) _ => rfl
      | .operator _ _ _ | .test _ | .yes _ _ _ | .no _ _ _ _ _ => rfl
      | .group _ _ | .subscript _ _ _ | .field _ _ _ _ _ => rfl

theorem begin_agrees (s : State) (signs : Signs) (x : Lexeme) (i : Nat) (settled : Option Nat)
    (hs : s.focus = .operand signs) :
    Agrees ((s.image settled).begin x i) ((s.begin signs x i).map (·, none)) := by
  cases x with
  | literal c => exact ⟨settled, by simp [Parse.State.begin, State.image, hs, form]⟩
  | string t => exact ⟨settled, by simp [Parse.State.begin, State.image, hs, form]⟩
  | name n => exact ⟨settled, by simp [Parse.State.begin, State.image, hs, form, beginsPhrase_frames]⟩
  | mark m =>
    cases m
    case openParen | openBracket | openBrace | negate | bang =>
      refine ⟨settled, ?_⟩
      simp [Parse.State.begin, State.image, hs, beginsPhrase_frames, Listed.meaning]
    case ifWord =>
      cases signs with
      | nil =>
        have hb : Parse.beginsPhrase (stackFrames s.stack) = true := beginsPhrase_frames [] s.stack
        exact ⟨settled, by simp [Parse.State.begin, State.image, hs, hb]⟩
      | cons sg signs => simp [State.begin, Parse.State.begin, State.image, hs, Parse.beginsPhrase]
    -- what is left can only close a bracket that stands open right before it
    all_goals
      cases signs with
      | cons sg signs => simp [State.begin, State.closeEmpty, Parse.State.begin, State.image, hs]
      | nil =>
        cases h : s.stack with
        | nil => simp [State.begin, State.closeEmpty, Parse.State.begin, State.image, hs, h]
        | cons f fs =>
          cases f with
          | group signs j =>
            cases signs <;> simp [State.begin, State.closeEmpty, Parse.State.begin, State.image, hs, h]
          | sequence o done =>
            cases o <;> simp [State.begin, State.closeEmpty, Parse.State.begin, State.image, hs, h, form,
              Opening.closer, Opening.close, meaning_items]
          | lambda head i =>
            cases head <;> simp [State.begin, State.closeEmpty, Parse.State.begin, State.image, hs, h]
          | operator l op i | test i | yes i t j | no i t j y k | subscript signs p i | field signs i done n j =>
            simp [State.begin, State.closeEmpty, Parse.State.begin, State.image, hs, h]

theorem declared_declare (n : Derivation .name) (i : Nat) (e : Derivation .expr)
    (ds : Option (Derivation .declarations)) :
    declared (some (declare n i e ds)) = declared ds ++ [⟨n.meaning.1, e.meaning⟩] := by
  cases ds <;> simp [declared, declare]

theorem stackFrames_cons_eq (f : Pending) (fs : List Pending) :
    ∃ g gs, stackFrames (f :: fs) = g :: gs := by
  match f with
  | .sequence (.args _ _ _) _ | .sequence (.list _ _) _ => exact ⟨_, _, rfl⟩
  | .operator _ _ _ | .test _ | .yes _ _ _ | .no _ _ _ _ _ | .lambda _ _ => exact ⟨_, _, rfl⟩
  | .group _ _ | .subscript _ _ _ | .field _ _ _ _ _ => exact ⟨_, _, rfl⟩

/-- A lexeme that an expression can begin with is taken where one begins. -/
theorem begin_isSome (s : State) (x : Lexeme) (i : Nat) (hx : Parse.beginsExpr x = true) :
    ∃ s', s.begin [] x i = some s' := by
  cases x with
  | literal c => exact ⟨_, rfl⟩
  | string t => exact ⟨_, rfl⟩
  | name n => exact ⟨_, rfl⟩
  | mark m => cases m <;> simp [Parse.beginsExpr] at hx <;> exact ⟨_, rfl⟩

theorem nextStatement_agrees (s : State) (signs : Signs) (p : Derivation .suffixed) (x : Lexeme) (i : Nat)
    (settled : Option Nat) (hs : s.focus = .complete signs p) :
    Agrees ((s.image settled).nextStatement p.meaning x i) (s.nextStatement signs p x i) := by
  unfold Parse.State.nextStatement State.nextStatement
  cases hx : Parse.beginsExpr x with
  | false => simp
  | true =>
    have hc := closePhrase_closing signs p s.stack
    match hst : s.statement with
    | .body => simp [State.image, hst]
    | .declaration n j =>
      simp only [State.image, hs, hst, Focus.signs, Statement.image, hc, Bool.not_true,
        Bool.false_eq_true, if_false]
      match hcl : closing signs p s.stack with
      | (e, f :: fs) =>
        obtain ⟨g, gs, hg⟩ := stackFrames_cons_eq f fs
        simp only [hg, Agrees]
      | (e, []) =>
        let t : State := { s with
          declarations := some (declare n j e s.declarations), statement := .body, stack := [],
          focus := .operand [] }
        obtain ⟨t', ht'⟩ := begin_isSome t x i hx
        have hb := begin_agrees t [] x i (some i) rfl
        simp only [t] at ht' hb
        simp only [ht', Option.map_some, Agrees] at hb ⊢
        cases firstSlip s.stack with
        | some k => simp
        | none =>
          obtain ⟨settled', hb⟩ := hb
          refine ⟨settled', ?_⟩
          simpa [State.image, declared_declare] using hb

theorem accept_agrees (e : Expr) (fs : List Parse.Frame) (slip settled : Option Nat) (t : Parse.State)
    (s : State) (h : t = s.image settled) :
    Agrees (Parse.Closed.accept ⟨e, fs, slip⟩ t) (some (s, slip)) := by
  cases slip with
  | none => exact ⟨settled, by simp [Parse.Closed.accept, h]⟩
  | some i => simp [Parse.Closed.accept]

theorem close_agrees (s : State) (signs : Signs) (p : Derivation .suffixed) (m : Mark) (i : Nat)
    (settled : Option Nat) (hs : s.focus = .complete signs p) :
    Agrees ((s.image settled).close p.meaning m) (s.close signs p m i) := by
  have hc := closePhrase_closing signs p s.stack
  unfold Parse.State.close State.close
  simp only [State.image, hs, Focus.signs, hc]
  generalize closing signs p s.stack = c
  obtain ⟨e, fs⟩ := c
  match fs with
  | .sequence (.args _ _ _) j :: fs =>
    cases m
    case comma | closeParen =>
      exact accept_agrees _ _ _ settled _ _
        (by simp [State.image, Opening.close, meaning_add, Listed.meaning, form])
    all_goals rfl
  | .sequence (.list _ _) j :: fs =>
    cases m
    case comma | closeBracket =>
      exact accept_agrees _ _ _ settled _ _
        (by simp [State.image, Opening.close, meaning_add, Listed.meaning, form])
    all_goals rfl
  | .test _ :: fs =>
    cases m
    case thenWord => exact accept_agrees _ _ _ settled _ _ (by simp [State.image])
    all_goals rfl
  | .yes _ _ _ :: fs =>
    cases m
    case elseWord => exact accept_agrees _ _ _ settled _ _ (by simp [State.image])
    all_goals rfl
  | .group _ _ :: fs =>
    cases m
    case closeParen => exact accept_agrees _ _ _ settled _ _ (by simp [State.image, form])
    all_goals rfl
  | .subscript _ _ _ :: fs =>
    cases m
    case closeBracket => exact accept_agrees _ _ _ settled _ _ (by simp [State.image, form])
    all_goals rfl
  | .field _ _ _ _ _ :: fs =>
    cases m
    case comma | closeBrace =>
      exact accept_agrees _ _ _ settled _ _ (by simp [State.image, meaning_add, Listed.meaning, form])
    all_goals rfl
  | [] | .lambda (.one _) _ :: fs | .lambda (.paren _) _ :: fs | .lambda (.params _) _ :: fs
  | .operator _ _ _ :: fs | .no _ _ _ _ _ :: fs => cases m <;> rfl

/-- An operand is a bare name, a bare group, or something that no function can begin with. -/
theorem operand_cases (signs : Signs) (p : Derivation .suffixed) :
    (∃ n, signs = [] ∧ p = .primary (.lookup n)) ∨ (∃ q, signs = [] ∧ p = .primary (.grouped q)) ∨
      (form signs p = .other ∧ name? signs p = none ∧ head? signs p = none) := by
  match signs, p with
  | [], .primary (.lookup n) => exact Or.inl ⟨n, rfl, rfl⟩
  | [], .primary (.grouped q) => exact Or.inr (Or.inl ⟨q, rfl, rfl⟩)
  | _ :: _, p => exact Or.inr (Or.inr ⟨by simp [form], rfl, rfl⟩)
  | [], .primary (.literal _ _) | [], .primary (.string _ _) => exact Or.inr (Or.inr ⟨rfl, rfl, rfl⟩)
  | [], .primary (.list _ _ _) | [], .primary (.record _ _ _) => exact Or.inr (Or.inr ⟨rfl, rfl, rfl⟩)
  | [], .call _ _ _ _ | [], .member _ _ _ => exact Or.inr (Or.inr ⟨rfl, rfl, rfl⟩)
  | [], .subscript _ _ _ _ => exact Or.inr (Or.inr ⟨rfl, rfl, rfl⟩)

theorem arrow_agrees (s : State) (signs : Signs) (p : Derivation .suffixed) (i : Nat)
    (settled : Option Nat) (hs : s.focus = .complete signs p) :
    Agrees ((s.image settled).continueMark p.meaning (form signs p) .arrow i)
      (s.continueMark signs p .arrow i) := by
  rcases operand_cases signs p with ⟨n, rfl, rfl⟩ | ⟨q, rfl, rfl⟩ | ⟨hf, -, hh⟩
  · exact ⟨settled, by simp [Parse.State.continueMark, State.image, hs, form]⟩
  · exact ⟨settled, by simp [Parse.State.continueMark, State.image, hs, form]⟩
  · simp [Parse.State.continueMark, State.continueMark, hf, hh]

theorem assign_agrees (s : State) (signs : Signs) (p : Derivation .suffixed) (i : Nat)
    (settled : Option Nat) (hs : s.focus = .complete signs p) :
    Agrees ((s.image settled).continueMark p.meaning (form signs p) .assign i)
      (s.continueMark signs p .assign i) := by
  rcases operand_cases signs p with ⟨n, rfl, rfl⟩ | ⟨q, rfl, rfl⟩ | ⟨hf, hn, -⟩
  · match hst : s.statement, hfs : s.stack with
    | .body, [] =>
      simp [Parse.State.continueMark, State.continueMark, State.image, hs, hst, hfs, form, name?]
    | .body, f :: fs =>
      obtain ⟨g, gs, hg⟩ := stackFrames_cons_eq f fs
      simp only [Parse.State.continueMark, State.continueMark, State.image, hs, hst, hfs, hg, form, name?,
        Agrees, Statement.image, Focus.signs, signFrames, List.nil_append]
    | .declaration _ _, fs =>
      simp [Parse.State.continueMark, State.continueMark, State.image, hst]
  · simp [Parse.State.continueMark, State.continueMark, form, name?]
  · simp [Parse.State.continueMark, State.continueMark, hf, hn]

theorem comma_eq_close (t : Parse.State) (e : Expr) (f : Form) (i : Nat)
    (h : ∀ fs, t.stack ≠ .group true :: fs) : t.continueMark e f .comma i = t.close e .comma := by
  simp only [Parse.State.continueMark]
  split
  · rename_i fs n j hfs
    exact absurd hfs (h fs)
  · rfl

theorem stackFrames_group {fs : List Pending} {gs : List Parse.Frame}
    (h : stackFrames fs = .group true :: gs) : ∃ i fs', fs = .group [] i :: fs' := by
  match fs with
  | .group [] i :: fs' => exact ⟨i, fs', rfl⟩
  | [] | .lambda (.one _) _ :: _ | .lambda (.paren _) _ :: _ | .lambda (.params _) _ :: _
  | .operator _ _ _ :: _ | .no _ _ _ _ _ :: _ | .sequence (.args _ _ _) _ :: _
  | .sequence (.list _ _) _ :: _ | .test _ :: _ | .yes _ _ _ :: _ | .subscript _ _ _ :: _
  | .field _ _ _ _ _ :: _ | .group (_ :: _) _ :: _ => simp at h

theorem comma_agrees (s : State) (signs : Signs) (p : Derivation .suffixed) (i : Nat)
    (settled : Option Nat) (hs : s.focus = .complete signs p) :
    Agrees ((s.image settled).continueMark p.meaning (form signs p) .comma i)
      (s.continueMark signs p .comma i) := by
  have hclose := close_agrees s signs p .comma i settled hs
  rcases operand_cases signs p with ⟨n, rfl, rfl⟩ | ⟨q, rfl, rfl⟩ | ⟨hf, hn, -⟩
  · by_cases hg : ∃ h fs, s.stack = .group [] h :: fs
    · obtain ⟨h, fs, hfs⟩ := hg
      simp [Parse.State.continueMark, State.continueMark, State.image, hs, hfs, form, name?, Listed.meaning]
    · have hp : ∀ gs, (s.image settled).stack ≠ .group true :: gs := by
        intro gs hgs
        simp only [State.image, hs, Focus.signs, signFrames, List.nil_append] at hgs
        exact hg (stackFrames_group hgs)
      have hb : s.continueMark [] (.primary (.lookup n)) .comma i =
          s.close [] (.primary (.lookup n)) .comma i := by
        simp only [State.continueMark]
        split
        · rename_i h fs _ hfs _
          exact absurd ⟨h, fs, hfs⟩ hg
        · rfl
      rw [comma_eq_close _ _ _ _ hp, hb]
      exact hclose
  · simpa [Parse.State.continueMark, State.continueMark, form, name?] using hclose
  · simpa [Parse.State.continueMark, State.continueMark, hf, hn] using hclose

theorem continueMark_operator (t : Parse.State) (e : Expr) (f : Form) (op : Operator) (i : Nat) :
    t.continueMark e f op.mark i =
      .ok { t with
        stack := .operator (Parse.reduceOperators op.level e t.stack).1 op i ::
          (Parse.reduceOperators op.level e t.stack).2,
        focus := .operand } := by
  match op with
  | .connective .and | .connective .or => rfl
  | .binary .mul | .binary .div | .binary .mod | .binary .add | .binary .sub => rfl
  | .binary .eq | .binary .ne | .binary .lt | .binary .le | .binary .gt | .binary .ge => rfl

theorem operator_agrees (s : State) (signs : Signs) (p : Derivation .suffixed) (op : Operator) (i : Nat)
    (settled : Option Nat) (hs : s.focus = .complete signs p) :
    Agrees ((s.image settled).continueMark p.meaning (form signs p) op.mark i)
      (s.continueMark signs p op.mark i) := by
  have h₁ := reduceOperators_signs op.level signs (.unsigned p) (stackFrames s.stack)
  have h₂ := reduceOperators_stack op.level (.operand (sign signs p)) s.stack
  simp only [Derivation.meaning] at h₁ h₂
  rw [Grammar.continueMark_operator, State.continueMark_operator]
  refine ⟨settled, ?_⟩
  simp only [State.image, hs, Focus.signs, h₁]
  simp only [sign] at h₂ ⊢
  simp [h₂]

theorem continueMark_agrees (s : State) (signs : Signs) (p : Derivation .suffixed) (m : Mark) (i : Nat)
    (settled : Option Nat) (hs : s.focus = .complete signs p) :
    Agrees ((s.image settled).continueMark p.meaning (form signs p) m i) (s.continueMark signs p m i) := by
  have hnext := nextStatement_agrees s signs p (.mark m) i settled hs
  have hclose := close_agrees s signs p m i settled hs
  cases m
  case apply | index | dot =>
    exact ⟨settled, by simp [Parse.State.continueMark, State.image, hs, Listed.meaning]⟩
  case openParen | openBracket | openBrace | negate | bang | ifWord => exact hnext
  case closeParen | closeBracket | closeBrace | colon | thenWord | elseWord => exact hclose
  case arrow => exact arrow_agrees s signs p i settled hs
  case assign => exact assign_agrees s signs p i settled hs
  case comma => exact comma_agrees s signs p i settled hs
  case star => exact operator_agrees s signs p (.binary .mul) i settled hs
  case slash => exact operator_agrees s signs p (.binary .div) i settled hs
  case percent => exact operator_agrees s signs p (.binary .mod) i settled hs
  case plus => exact operator_agrees s signs p (.binary .add) i settled hs
  case minus => exact operator_agrees s signs p (.binary .sub) i settled hs
  case equal => exact operator_agrees s signs p (.binary .eq) i settled hs
  case unequal => exact operator_agrees s signs p (.binary .ne) i settled hs
  case less => exact operator_agrees s signs p (.binary .lt) i settled hs
  case atMost => exact operator_agrees s signs p (.binary .le) i settled hs
  case greater => exact operator_agrees s signs p (.binary .gt) i settled hs
  case atLeast => exact operator_agrees s signs p (.binary .ge) i settled hs
  case both => exact operator_agrees s signs p (.connective .and) i settled hs
  case either => exact operator_agrees s signs p (.connective .or) i settled hs

theorem meaning_declarations (ds : Derivation .declarations) : ∃ d rest, ds.meaning = d :: rest := by
  cases ds with
  | firstDeclaration d => exact ⟨_, _, rfl⟩
  | moreDeclarations ds d =>
    obtain ⟨d', rest, h⟩ := meaning_declarations ds
    exact ⟨d', rest ++ [d.meaning], by simp [h]⟩

/-- A string after an operand makes an import, or else it begins the next statement. -/
theorem string_agrees (s : State) (signs : Signs) (p : Derivation .suffixed) (t : String) (i : Nat)
    (settled : Option Nat) (hs : s.focus = .complete signs p) :
    Agrees ((s.image settled).continue p.meaning (form signs p) (.string t) i)
      (s.continue signs p (.string t) i) := by
  have hnext := nextStatement_agrees s signs p (.string t) i settled hs
  rcases operand_cases signs p with ⟨n, rfl, rfl⟩ | ⟨q, rfl, rfl⟩ | ⟨hf, hn, -⟩
  · match hst : s.statement, hfs : s.stack, hds : s.declarations with
    | .body, [], none =>
      simp only [Parse.State.continue, State.continue, State.image, hs, hst, hfs, hds, name?]
      exact ⟨none, by simp [State.image, form, declared]⟩
    | .body, [], some ds =>
      obtain ⟨d, rest, hd⟩ := meaning_declarations ds
      simpa [Parse.State.continue, State.continue, State.image, hs, hst, hfs, hds, form, declared, hd]
        using hnext
    | .body, f :: fs, _ =>
      obtain ⟨g, gs, hg⟩ := stackFrames_cons_eq f fs
      simp only [State.image, hs, hst, hfs, hg, Focus.signs, signFrames, List.nil_append,
        Statement.image] at hnext
      simp only [Parse.State.continue, State.continue, State.image, hs, hst, hfs, hg, form, Focus.signs,
        signFrames, List.nil_append, Statement.image]
      exact hnext
    | .declaration _ _, _, _ =>
      simpa [Parse.State.continue, State.continue, State.image, hst] using hnext
  · simpa [Parse.State.continue, State.continue, form, name?] using hnext
  · simpa [Parse.State.continue, State.continue, hf, hn] using hnext

theorem continue_agrees (s : State) (signs : Signs) (p : Derivation .suffixed) (x : Lexeme) (i : Nat)
    (settled : Option Nat) (hs : s.focus = .complete signs p) :
    Agrees ((s.image settled).continue p.meaning (form signs p) x i) (s.continue signs p x i) := by
  have hnext := nextStatement_agrees s signs p x i settled hs
  cases x with
  | mark m => exact continueMark_agrees s signs p m i settled hs
  | name n => exact hnext
  | literal c => exact hnext
  | string t => exact string_agrees s signs p t i settled hs

theorem step_agrees (s : State) (x : Lexeme) (i : Nat) (settled : Option Nat) :
    Agrees ((s.image settled).step x i) (s.step x i) := by
  match hs : s.focus with
  | .operand signs =>
    have := begin_agrees s signs x i settled hs
    simpa [Parse.State.step, State.step, State.image, hs] using this
  | .complete signs p =>
    have := continue_agrees s signs p x i settled hs
    simpa [Parse.State.step, State.step, State.image, hs] using this
  | .afterDot signs p j =>
    cases x <;> simp [Parse.State.step, State.step, State.image, hs, form]
  | .param h n j more =>
    cases x <;> simp [Parse.State.step, State.step, State.image, hs, meaning_add]
  | .paramNamed h n j ns =>
    cases x with
    | mark m => cases m <;> simp [Parse.State.step, State.step, State.image, hs, Listed.meaning]
    | _ => simp [Parse.State.step, State.step, State.image, hs]
  | .arrow ps =>
    cases x with
    | mark m => cases m <;> simp [Parse.State.step, State.step, State.image, hs]
    | _ => simp [Parse.State.step, State.step, State.image, hs]
  | .fieldName signs h done =>
    cases x with
    | mark m => cases m <;> simp [Parse.State.step, State.step, State.image, hs, meaning_items, form]
    | _ => simp [Parse.State.step, State.step, State.image, hs]
  | .fieldColon signs h done n =>
    cases x with
    | mark m => cases m <;> simp [Parse.State.step, State.step, State.image, hs]
    | _ => simp [Parse.State.step, State.step, State.image, hs]

/-! ## Taking many tokens -/

theorem meaning_whole (s : State) (ds : Option (Derivation .declarations))
    (e : Option (Derivation .expr)) :
    (s.whole ds e).meaning = ⟨s.imports.map Derivation.meaning, declared ds, e.map Derivation.meaning⟩ := by
  unfold State.whole
  induction s.imports with
  | nil => cases ds <;> cases e <;> simp [statements, declared]
  | cons i is ih =>
    simp only [List.foldr_cons, Derivation.meaning, ih]
    rfl

/-- What the end of the tokens makes of the two machines. -/
theorem finish_agrees (s : State) (settled : Option Nat) (length : Nat) :
    match s.finish with
    | none => (s.image settled).finish length = .error ⟨length, settled⟩
    | some (d, none) => (s.image settled).finish length = .ok d.meaning
    | some (_, some i) => (s.image settled).finish length = .error ⟨i, settled⟩ := by
  match hs : s.focus with
  | .operand [] =>
    match hst : s.statement, hfs : s.stack with
    | .body, [] => simp [State.finish, Parse.State.finish, State.image, hs, hst, hfs, meaning_whole]
    | .body, f :: fs =>
      obtain ⟨g, gs, hg⟩ := stackFrames_cons_eq f fs
      simp only [State.finish, Parse.State.finish, State.image, hs, hst, hfs, hg, Focus.signs, Focus.image,
        signFrames, List.nil_append, Statement.image]
    | .declaration _ _, _ => simp [State.finish, Parse.State.finish, State.image, hs, hst]
  | .operand (_ :: _) => simp [State.finish, Parse.State.finish, State.image, hs]
  | .complete signs p =>
    have hc := closePhrase_closing signs p s.stack
    simp only [State.finish, Parse.State.finish, State.image, hs, Focus.signs, Focus.image, hc]
    rcases closing signs p s.stack with ⟨e, _ | ⟨f, fs⟩⟩
    · cases hst : s.statement with
      | body => cases firstSlip s.stack <;> simp [meaning_whole]
      | declaration n i => cases firstSlip s.stack <;> simp [meaning_whole, declared_declare]
    · obtain ⟨g, gs, hg⟩ := stackFrames_cons_eq f fs
      cases hst : s.statement <;> simp only [hg]
  | .afterDot _ _ _ | .param _ _ _ _ | .paramNamed _ _ _ _ | .arrow _ | .fieldName _ _ _
  | .fieldColon _ _ _ _ => simp [State.finish, Parse.State.finish, State.image, hs]

/-- What one token makes of the two machines. -/
theorem feed_agrees (s : State) (t : Token) (settled : Option Nat) :
    match s.step t.lexeme t.start with
    | none => (s.image settled).feed t = .error ⟨t.start, settled <|> some t.start⟩
    | some (s', none) => ∃ settled', (s.image settled).feed t = .ok (s'.image settled')
    | some (_, some i) => (s.image settled).feed t = .error ⟨i, settled <|> some t.start⟩ := by
  have h := step_agrees s t.lexeme t.start (settled <|> some t.start)
  have himage : { s.image settled with settled := (s.image settled).settled <|> some t.start } =
      s.image (settled <|> some t.start) := rfl
  simp only [Parse.State.feed, himage]
  rcases hb : s.step t.lexeme t.start with _ | ⟨s', _ | i⟩
  · simp only [hb, Agrees] at h
    simp only [h]
    rfl
  · simp only [hb, Agrees] at h
    obtain ⟨settled', h⟩ := h
    exact ⟨settled', by rw [h]⟩
  · simp only [hb, Agrees] at h
    simp only [h]
    rfl

end LazyModules.Grammar
