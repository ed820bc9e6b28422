import Mathlib.Tactic.Tauto
import LazyModules.Proofs.Grammar.Builder
import LazyModules.Proofs.Grammar.Regroup

/-!
# What the builder builds

* `Takes`: a step of the builder adds its token to those that the state holds, keeps to the precedences
  (`State.Ready`), and keeps the state lawful exactly if it reports no arrow. `step_takes`, `run_takes`.
* `finish_builds`: the same for the derivation at the end.
-/
namespace LazyModules.Grammar

open Parse (Operator)

/-! ## Tokens -/

@[simp] def signTokens : Signs → List Token
  | [] => []
  | (op, i) :: signs => signTokens signs ++ [mark op.mark i]

@[simp] def Listed.tokens {x : Phrase} : Listed x → List Token
  | none => []
  | some (s, i) => s.yield ++ [mark .comma i]

@[simp] def Params.tokens : Params → List Token
  | .none i j => [mark .openParen i, mark .closeParen j]
  | .many i n j ns k => mark .openParen i :: n.yield ++ mark .comma j :: ns.yield ++ [mark .closeParen k]

@[simp] def Head.tokens : Head → List Token
  | .one n => n.yield
  | .paren p => p.yield
  | .params ps => ps.tokens

@[simp] def Opening.tokens : Opening → List Token
  | .args signs fn i => signTokens signs ++ fn.yield ++ [mark .apply i]
  | .list signs i => signTokens signs ++ [mark .openBracket i]

@[simp] def Pending.tokens : Pending → List Token
  | .operator l op i => l.yield ++ [mark op.mark i]
  | .test i => [mark .ifWord i]
  | .yes i t j => mark .ifWord i :: t.yield ++ [mark .thenWord j]
  | .no i t j y k => mark .ifWord i :: t.yield ++ mark .thenWord j :: y.yield ++ [mark .elseWord k]
  | .lambda h i => h.tokens ++ [mark .arrow i]
  | .group signs i => signTokens signs ++ [mark .openParen i]
  | .sequence o done => o.tokens ++ done.tokens
  | .subscript signs p i => signTokens signs ++ p.yield ++ [mark .index i]
  | .field signs i done n j => signTokens signs ++ mark .openBrace i :: done.tokens ++ n.yield ++ [mark .colon j]

@[simp] def stackTokens : List Pending → List Token
  | [] => []
  | f :: fs => stackTokens fs ++ f.tokens

@[simp] def Focus.tokens : Focus → List Token
  | .operand signs => signTokens signs
  | .complete signs p => signTokens signs ++ p.yield
  | .afterDot signs p i => signTokens signs ++ p.yield ++ [mark .dot i]
  | .param i n j more => mark .openParen i :: n.yield ++ mark .comma j :: more.tokens
  | .paramNamed i n j ns => mark .openParen i :: n.yield ++ mark .comma j :: ns.yield
  | .arrow ps => ps.tokens
  | .fieldName signs i done => signTokens signs ++ mark .openBrace i :: done.tokens
  | .fieldColon signs i done n => signTokens signs ++ mark .openBrace i :: done.tokens ++ n.yield

@[simp] def Statement.tokens : Statement → List Token
  | .body => []
  | .declaration n i => n.yield ++ [mark .assign i]

@[simp] def declaredTokens : Option (Derivation .declarations) → List Token
  | none => []
  | some ds => ds.yield

def State.tokens (s : State) : List Token :=
  s.imports.flatMap Derivation.yield ++ declaredTokens s.declarations ++ s.statement.tokens ++
    stackTokens s.stack ++ s.focus.tokens

@[simp] theorem yield_add {x : Phrase} (done : Listed x) (d : Derivation x) :
    (done.add d).yield = done.tokens ++ d.yield := by
  match done with
  | none => simp [Listed.add]
  | some (s, i) => simp [Listed.add]

@[simp] theorem yield_items {x : Phrase} (done : Listed x) : done.items.yield = done.tokens := by
  match done with
  | none => simp [Listed.items]
  | some (s, i) => simp [Listed.items]

@[simp] theorem yield_lambda (h : Head) (i : Nat) (e : Derivation .expr) :
    (h.lambda i e).yield = h.tokens ++ mark .arrow i :: e.yield := by
  match h with
  | .one _ | .paren _ | .params (.none _ _) | .params (.many _ _ _ _ _) => simp [Head.lambda]

@[simp] theorem yield_sign (signs : Signs) (p : Derivation .suffixed) :
    (sign signs p).yield = signTokens signs ++ p.yield := by
  have h : ∀ u : Derivation .unary,
      (signs.foldl (fun u s => Derivation.signed s.1 s.2 u) u).yield = signTokens signs ++ u.yield := by
    induction signs with
    | nil => simp
    | cons s signs ih => intro u; simp [ih]
  simpa [sign] using h (.unsigned p)

theorem yield_closeExpr (e : Derivation .expr) (fs : List Pending) :
    stackTokens (closeExpr e fs).2 ++ (closeExpr e fs).1.yield = stackTokens fs ++ e.yield := by
  fun_induction closeExpr e fs <;> simp_all

theorem yield_reduce (level : Nat) (e : Derivation .expr) (fs : List Pending) :
    stackTokens (reduce level e fs).2 ++ (reduce level e fs).1.yield = stackTokens fs ++ e.yield := by
  fun_induction reduce level e fs <;> simp_all

theorem yield_closing (signs : Signs) (p : Derivation .suffixed) (fs : List Pending) :
    stackTokens (closing signs p fs).2 ++ (closing signs p fs).1.yield =
      stackTokens fs ++ signTokens signs ++ p.yield := by
  simp [closing, yield_closeExpr]

/-! ## Parts -/

def Listed.All (P : Derivation .expr → Prop) {x : Phrase} : Listed x → Prop
  | none => True
  | some (s, _) => s.Everywhere P

@[simp] theorem Listed.all_none (P : Derivation .expr → Prop) {x : Phrase} :
    Listed.All P (none : Listed x) ↔ True := Iff.rfl

@[simp] theorem Listed.all_some (P : Derivation .expr → Prop) {x : Phrase} (s : Derivation (.some x))
    (i : Nat) : Listed.All P (some (s, i)) ↔ s.Everywhere P := Iff.rfl

@[simp] def Pending.All (P : Derivation .expr → Prop) : Pending → Prop
  | .operator l _ _ => l.Everywhere P
  | .test _ => True
  | .yes _ t _ => t.Everywhere P
  | .no _ t _ y _ => t.Everywhere P ∧ y.Everywhere P
  | .lambda (.paren p) _ => p.Everywhere P
  | .lambda _ _ => True
  | .group _ _ => True
  | .sequence (.args _ fn _) done => fn.Everywhere P ∧ done.All P
  | .sequence (.list _ _) done => done.All P
  | .subscript _ p _ => p.Everywhere P
  | .field _ _ done _ _ => done.All P

@[simp] def StackAll (P : Derivation .expr → Prop) : List Pending → Prop
  | [] => True
  | f :: fs => f.All P ∧ StackAll P fs

@[simp] def Focus.All (P : Derivation .expr → Prop) : Focus → Prop
  | .complete _ p | .afterDot _ p _ => p.Everywhere P
  | .fieldName _ _ done | .fieldColon _ _ done _ => done.All P
  | _ => True

/-- Whether every finished expression in a state is as `P` asks. -/
structure State.All (P : Derivation .expr → Prop) (s : State) : Prop where
  declarations : ∀ ds ∈ s.declarations, ds.Everywhere P
  stack : StackAll P s.stack
  focus : s.focus.All P

/-- Whether an operand that binds like `level` may end right of what the stack ends with. -/
@[simp] def Above (level : Nat) : List Pending → Prop
  | .operator _ op _ :: _ => op.level < level
  | _ => True

/-- Whether the operators that wait on a stack wait as the precedences ask. -/
@[simp] def Stacked : List Pending → Prop
  | [] => True
  | .operator l op _ :: fs => (l.isOpen = false ∧ op.level ≤ l.level ∧ Above op.level fs) ∧ Stacked fs
  | _ :: fs => Stacked fs

/-- What a state is like if the precedences have been followed. -/
structure State.Ready (s : State) : Prop where
  all : s.All Derivation.IsGrouped
  stacked : Stacked s.stack

section

variable {P : Derivation .expr → Prop}

@[simp] theorem everywhere_add {x : Phrase} (done : Listed x) (d : Derivation x) :
    (done.add d).Everywhere P ↔ done.All P ∧ d.Everywhere P := by
  match done with
  | none => simp [Listed.add, Derivation.Everywhere]
  | some (s, i) => simp [Listed.add, Derivation.Everywhere]

@[simp] theorem everywhere_items {x : Phrase} (done : Listed x) :
    done.items.Everywhere P ↔ done.All P := by
  match done with
  | none => simp [Listed.items, Derivation.Everywhere]
  | some (s, i) => simp [Listed.items, Derivation.Everywhere]

@[simp] theorem everywhere_sign (signs : Signs) (p : Derivation .suffixed) :
    (sign signs p).Everywhere P ↔ p.Everywhere P := by
  have h : ∀ u : Derivation .unary,
      (signs.foldl (fun u s => Derivation.signed s.1 s.2 u) u).Everywhere P ↔ u.Everywhere P := by
    induction signs with
    | nil => simp
    | cons s signs ih => intro u; simp [ih, Derivation.Everywhere]
  simpa [sign, Derivation.Everywhere] using h (.unsigned p)

end

/-! ## Precedences -/

@[simp] theorem preferred_lambda (h : Head) (i : Nat) (e : Derivation .expr) :
    (h.lambda i e).Preferred ↔ (Pending.lambda h i).All Derivation.IsGrouped ∧ e.Preferred := by
  match h with
  | .one _ | .paren _ | .params (.none _ _) | .params (.many _ _ _ _ _) =>
    simp [Head.lambda, Derivation.Everywhere, Derivation.IsGrouped]

@[simp] theorem level_lambda (h : Head) (i : Nat) (e : Derivation .expr) : (h.lambda i e).level = 6 := by
  match h with
  | .one _ | .paren _ | .params (.none _ _) | .params (.many _ _ _ _ _) => rfl

/-- What binds tighter than every operator may stand anywhere. -/
theorem above_six (fs : List Pending) : Above 6 fs := by
  match fs with
  | .operator _ op _ :: _ =>
    have := Derivation.level_le op
    simp only [Above]
    omega
  | [] | .test _ :: _ | .yes _ _ _ :: _ | .no _ _ _ _ _ :: _ | .lambda _ _ :: _ | .group _ _ :: _
  | .sequence _ _ :: _ | .subscript _ _ _ :: _ | .field _ _ _ _ _ :: _ => trivial

theorem preferred_closeExpr (e : Derivation .expr) (fs : List Pending) (he : e.Preferred)
    (hfs : StackAll Derivation.IsGrouped fs) (hs : Stacked fs) (ha : Above e.level fs) :
    (closeExpr e fs).1.Preferred ∧ StackAll Derivation.IsGrouped (closeExpr e fs).2 ∧
      Stacked (closeExpr e fs).2 := by
  fun_induction closeExpr e fs with
  | case1 e l op i fs ih =>
    obtain ⟨⟨hopen, hle, habove⟩, hs⟩ := hs
    obtain ⟨hl, hfs⟩ := hfs
    exact ih ⟨⟨hopen, hle, ha⟩, hl, he⟩ hfs hs habove
  | case2 e i t j y k fs ih =>
    obtain ⟨⟨ht, hy⟩, hfs⟩ := hfs
    exact ih ⟨trivial, ht, hy, he⟩ hfs hs (above_six fs)
  | case3 e h i fs ih =>
    obtain ⟨hh, hfs⟩ := hfs
    exact ih ((preferred_lambda h i e).mpr ⟨hh, he⟩) hfs hs (by rw [level_lambda]; exact above_six fs)
  | case4 e fs _ _ _ => exact ⟨he, hfs, hs⟩

theorem preferred_reduce (level : Nat) (e : Derivation .expr) (fs : List Pending) (he : e.Preferred)
    (hfs : StackAll Derivation.IsGrouped fs) (hs : Stacked fs) (ha : Above e.level fs)
    (hopen : e.isOpen = false) (hle : level ≤ e.level) :
    (reduce level e fs).1.Preferred ∧ StackAll Derivation.IsGrouped (reduce level e fs).2 ∧
      (reduce level e fs).1.isOpen = false ∧ level ≤ (reduce level e fs).1.level ∧
      Above level (reduce level e fs).2 ∧ Stacked (reduce level e fs).2 := by
  fun_induction reduce level e fs with
  | case1 e l op i fs hop ih =>
    obtain ⟨⟨hl, hlle, habove⟩, hs⟩ := hs
    obtain ⟨pl, hfs⟩ := hfs
    exact ih ⟨⟨hl, hlle, ha⟩, pl, he⟩ hfs hs habove hopen hop
  | case2 e l op i fs hop => exact ⟨he, hfs, hopen, hle, Nat.not_le.mp hop, hs⟩
  | case3 e fs h =>
    refine ⟨he, hfs, hopen, hle, ?_, hs⟩
    match fs with
    | .operator l op i :: fs => exact absurd rfl (h l op i fs)
    | [] | .test _ :: _ | .yes _ _ _ :: _ | .no _ _ _ _ _ :: _ | .lambda _ _ :: _ | .group _ _ :: _
    | .sequence _ _ :: _ | .subscript _ _ _ :: _ | .field _ _ _ _ _ :: _ => trivial

/-! ## Parentheses before arrows -/

theorem lawful_lambda (h : Head) (i : Nat) (e : Derivation .expr) :
    (h.lambda i e).Lawful ↔
      (Pending.lambda h i).All Derivation.HasLoneName ∧ e.Lawful ∧ h.slip i = none := by
  match h with
  | .one _ | .params (.none _ _) | .params (.many _ _ _ _ _) =>
    simp [Head.lambda, Head.slip, Derivation.Everywhere, Derivation.HasLoneName]
  | .paren p =>
    simp only [Head.lambda, Head.slip, Derivation.Everywhere, Derivation.HasLoneName, Pending.All,
      ite_eq_left_iff, reduceCtorEq, imp_false, not_not]
    tauto

theorem lawful_closeExpr (e : Derivation .expr) (fs : List Pending) :
    ((closeExpr e fs).1.Lawful ∧ StackAll Derivation.HasLoneName (closeExpr e fs).2) ↔
      (e.Lawful ∧ StackAll Derivation.HasLoneName fs) ∧ firstSlip fs = none := by
  fun_induction closeExpr e fs with
  | case1 e l op i fs ih =>
    rw [ih]
    simp only [Derivation.Everywhere, Derivation.HasLoneName, firstSlip, StackAll, Pending.All]
    tauto
  | case2 e i t j y k fs ih =>
    rw [ih]
    simp only [Derivation.Everywhere, Derivation.HasLoneName, firstSlip, StackAll, Pending.All]
    tauto
  | case3 e h i fs ih =>
    rw [ih, lawful_lambda]
    simp only [firstSlip, StackAll, Option.orElse_eq_orElse, Option.orElse_eq_or,
      Option.or_eq_none_iff]
    tauto
  | case4 e fs h₁ h₂ h₃ =>
    have : firstSlip fs = none := by
      unfold firstSlip
      split
      · exact absurd rfl (h₁ _ _ _ _)
      · exact absurd rfl (h₂ _ _ _ _ _ _)
      · exact absurd rfl (h₃ _ _ _)
      · rfl
    simp [this]

theorem lawful_reduce (level : Nat) (e : Derivation .expr) (fs : List Pending) :
    ((reduce level e fs).1.Lawful ∧ StackAll Derivation.HasLoneName (reduce level e fs).2) ↔
      e.Lawful ∧ StackAll Derivation.HasLoneName fs := by
  fun_induction reduce level e fs with
  | case1 e l op i fs hop ih =>
    rw [ih]
    simp only [Derivation.Everywhere, Derivation.HasLoneName, StackAll, Pending.All]
    tauto
  | case2 e l op i fs hop => rfl
  | case3 e fs h => rfl

/-! ## Steps -/

abbrev State.Lawful (s : State) : Prop := s.All Derivation.HasLoneName

/-- What taking tokens may do to a state, if the first misplaced arrow that comes out is `slip`. -/
structure Takes (s : State) (ts : List Token) (s' : State) (slip : Option Nat) : Prop where
  tokens : s'.tokens = s.tokens ++ ts
  ready : s.Ready → s'.Ready
  lawful : s'.Lawful ↔ s.Lawful ∧ slip = none

theorem State.all_iff (P : Derivation .expr → Prop) (s : State) :
    s.All P ↔ (∀ ds ∈ s.declarations, ds.Everywhere P) ∧ StackAll P s.stack ∧ s.focus.All P :=
  ⟨fun h => ⟨h.declarations, h.stack, h.focus⟩, fun h => ⟨h.1, h.2.1, h.2.2⟩⟩

theorem State.ready_iff (s : State) : s.Ready ↔ s.All Derivation.IsGrouped ∧ Stacked s.stack :=
  ⟨fun h => ⟨h.all, h.stacked⟩, fun h => ⟨h.1, h.2⟩⟩

theorem Takes.trans {s s' s'' : State} {ts us : List Token} {slip : Option Nat}
    (h : Takes s ts s' slip) (h' : Takes s' us s'' none) : Takes s (ts ++ us) s'' slip where
  tokens := by rw [h'.tokens, h.tokens, List.append_assoc]
  ready hs := h'.ready (h.ready hs)
  lawful := by rw [h'.lawful, h.lawful]; simp

theorem closeEmpty_takes (s s' : State) (signs : Signs) (m : Mark) (i : Nat)
    (hs : s.focus = .operand signs) (h : s.closeEmpty signs m i = some s') :
    Takes s [mark m i] s' none := by
  match signs, hfs : s.stack with
  | [], .group [] j :: fs =>
    simp only [State.closeEmpty, hfs] at h
    obtain ⟨rfl, h⟩ := Option.ite_none_right_eq_some.mp h
    obtain rfl := Option.some.inj h
    constructor <;> simp [State.tokens, State.ready_iff, State.all_iff, hs, hfs]
  | [], .sequence (.args signs fn j) done :: fs | [], .sequence (.list signs j) done :: fs =>
    simp only [State.closeEmpty, hfs] at h
    obtain ⟨rfl, h⟩ := Option.ite_none_right_eq_some.mp h
    obtain rfl := Option.some.inj h
    constructor <;> simp +contextual [State.tokens, State.ready_iff, State.all_iff, hs, hfs,
      Opening.close, Opening.closer, Derivation.Everywhere, and_comm]
  | _ :: _, _ | [], [] | [], .group (_ :: _) _ :: _ | [], .operator _ _ _ :: _ | [], .test _ :: _
  | [], .yes _ _ _ :: _ | [], .no _ _ _ _ _ :: _ | [], .lambda _ _ :: _
  | [], .subscript _ _ _ :: _ | [], .field _ _ _ _ _ :: _ => simp [State.closeEmpty, hfs] at h

theorem begin_takes (s s' : State) (signs : Signs) (x : Lexeme) (i : Nat) (hs : s.focus = .operand signs)
    (h : s.begin signs x i = some s') : Takes s [⟨x, i⟩] s' none := by
  cases x with
  | literal c | string t | name n =>
    obtain rfl := Option.some.inj h
    constructor <;> simp [State.tokens, State.ready_iff, State.all_iff, hs, Derivation.Everywhere]
  | mark m =>
    cases m
    case openParen | openBracket | openBrace | negate | bang =>
      obtain rfl := Option.some.inj h
      constructor <;> simp [State.tokens, State.ready_iff, State.all_iff, hs, UnaryOp.mark]
    case ifWord =>
      obtain ⟨rfl, h⟩ := Option.ite_none_right_eq_some.mp h
      obtain rfl := Option.some.inj h
      constructor <;> simp [State.tokens, State.ready_iff, State.all_iff, hs]
    all_goals exact closeEmpty_takes s s' signs _ i hs h

theorem preferred_closing (signs : Signs) (p : Derivation .suffixed) (s : State)
    (hs : s.focus = .complete signs p) (h : s.Ready) :
    (closing signs p s.stack).1.Preferred ∧ StackAll Derivation.IsGrouped (closing signs p s.stack).2 ∧
      Stacked (closing signs p s.stack).2 := by
  have hp : p.Preferred := by simpa [hs] using h.all.focus
  exact preferred_closeExpr _ s.stack ⟨trivial, (everywhere_sign signs p).mpr hp⟩ h.all.stack h.stacked
    (above_six s.stack)

theorem lawful_closing (signs : Signs) (p : Derivation .suffixed) (fs : List Pending) :
    ((closing signs p fs).1.Lawful ∧ StackAll Derivation.HasLoneName (closing signs p fs).2) ↔
      (p.Lawful ∧ StackAll Derivation.HasLoneName fs) ∧ firstSlip fs = none := by
  rw [closing, lawful_closeExpr]
  simp [Derivation.Everywhere, Derivation.HasLoneName]

/-- A token is taken well after an operand if it is taken well after the expression that ends there. -/
theorem takes_of_closing {s s' : State} {signs : Signs} {p : Derivation .suffixed} {ts : List Token}
    {e : Derivation .expr} {fs : List Pending} (hs : s.focus = .complete signs p)
    (hc : closing signs p s.stack = (e, fs)) (himports : s'.imports = s.imports)
    (htokens : declaredTokens s'.declarations ++ s'.statement.tokens ++ stackTokens s'.stack ++
      s'.focus.tokens = declaredTokens s.declarations ++ s.statement.tokens ++ stackTokens fs ++ e.yield ++ ts)
    (hstacked : Stacked fs → Stacked s'.stack)
    (hall : ∀ P, s'.All P ↔ (∀ ds ∈ s.declarations, ds.Everywhere P) ∧ e.Everywhere P ∧ StackAll P fs) :
    Takes s ts s' (firstSlip s.stack) := by
  have hy := yield_closing signs p s.stack
  have hp := preferred_closing signs p s hs
  have hl := lawful_closing signs p s.stack
  simp only [hc] at hy hp hl
  refine ⟨?_, fun h => ?_, ?_⟩
  · have hy' := congrArg (· ++ ts) hy
    simp only [List.append_assoc] at htokens hy'
    simp only [State.tokens, himports, List.append_assoc]
    rw [htokens, hy', hs]
    simp
  · obtain ⟨he, hfs, hst⟩ := hp h
    exact ⟨(hall _).mpr ⟨h.all.declarations, he, hfs⟩, hstacked hst⟩
  · have hp := State.all_iff Derivation.HasLoneName s
    simp only [hs, Focus.All] at hp
    simp only [State.Lawful, hall, hp, hl]
    tauto

theorem close_takes (s s' : State) (signs : Signs) (p : Derivation .suffixed) (m : Mark) (i : Nat)
    (slip : Option Nat) (hs : s.focus = .complete signs p) (h : s.close signs p m i = some (s', slip)) :
    Takes s [mark m i] s' slip := by
  unfold State.close at h
  match hc : closing signs p s.stack with
  | (e, .sequence (.args _ fn _) done :: fs) | (e, .sequence (.list _ _) done :: fs) =>
    simp only [hc] at h
    split at h
    · rename_i hm
      obtain ⟨rfl, rfl⟩ := Prod.mk.inj (Option.some.inj h)
      refine takes_of_closing hs hc rfl (by simp [hm]) (by simp) fun P => ?_
      simp [State.all_iff, and_comm, and_left_comm]
    · obtain ⟨rfl, h⟩ := Option.ite_none_right_eq_some.mp h
      obtain ⟨rfl, rfl⟩ := Prod.mk.inj (Option.some.inj h)
      refine takes_of_closing hs hc rfl (by simp [Opening.close, Opening.closer]) (by simp) fun P => ?_
      simp [State.all_iff, Derivation.Everywhere, Opening.close, and_comm, and_left_comm]
  | (e, .test _ :: fs) | (e, .yes _ _ _ :: fs) | (e, .group _ _ :: fs) | (e, .subscript _ _ _ :: fs)
  | (e, .field _ _ _ _ _ :: fs) =>
    rw [hc] at h
    cases m <;> cases h
    all_goals
      refine takes_of_closing hs hc rfl (by simp) (by simp) fun P => ?_
      simp [State.all_iff, Derivation.Everywhere, and_comm, and_left_comm]
  | (e, []) | (e, .lambda _ _ :: fs) | (e, .operator _ _ _ :: fs) | (e, .no _ _ _ _ _ :: fs) =>
    rw [hc] at h
    cases m <;> cases h

@[simp] theorem yield_declare (n : Derivation .name) (i : Nat) (e : Derivation .expr)
    (ds : Option (Derivation .declarations)) :
    (declare n i e ds).yield = declaredTokens ds ++ n.yield ++ mark .assign i :: e.yield := by
  cases ds <;> simp [declare]

@[simp] theorem everywhere_declare {P : Derivation .expr → Prop} (n : Derivation .name) (i : Nat)
    (e : Derivation .expr) (ds : Option (Derivation .declarations)) :
    (declare n i e ds).Everywhere P ↔ (∀ d ∈ ds, d.Everywhere P) ∧ e.Everywhere P := by
  cases ds <;> simp [declare, Derivation.Everywhere]

theorem nextStatement_takes (s s' : State) (signs : Signs) (p : Derivation .suffixed) (x : Lexeme) (i : Nat)
    (slip : Option Nat) (hs : s.focus = .complete signs p)
    (h : s.nextStatement signs p x i = some (s', slip)) : Takes s [⟨x, i⟩] s' slip := by
  unfold State.nextStatement at h
  split at h
  · cases h
  match hst : s.statement, hc : closing signs p s.stack with
  | .declaration n j, (e, []) =>
    simp only [hst, hc] at h
    obtain ⟨t, ht, h⟩ := Option.map_eq_some_iff.mp h
    obtain ⟨rfl, rfl⟩ := Prod.mk.inj h
    -- the declaration ends before the token
    have hd : Takes s [] { s with
        declarations := some (declare n j e s.declarations), statement := .body, stack := [],
        focus := .operand [] } (firstSlip s.stack) := by
      refine takes_of_closing hs hc rfl ?_ (by simp) fun P => ?_
      · simp [hst]
      · simp [State.all_iff]
    exact hd.trans (begin_takes _ _ _ _ _ rfl ht)
  | .body, _ | .declaration _ _, (_, _ :: _) => simp [hst, hc] at h

/-- What an operand is that is a name. -/
theorem name?_eq_some {signs : Signs} {p : Derivation .suffixed} {n : Derivation .name}
    (h : name? signs p = some n) : signs = [] ∧ p = .primary (.lookup n) := by
  match signs, p, h with
  | [], .primary (.lookup _), h => exact ⟨rfl, by rw [Option.some.inj h]⟩

theorem head?_takes (s : State) (signs : Signs) (p : Derivation .suffixed) (i : Nat) (hd : Head)
    (hs : s.focus = .complete signs p) (h : head? signs p = some hd) :
    Takes s [mark .arrow i] { s with stack := .lambda hd i :: s.stack, focus := .operand [] } none := by
  match signs, p, h with
  | [], .primary (.lookup n), h | [], .primary (.grouped q), h =>
    obtain rfl := Option.some.inj h
    constructor <;>
      simp +contextual [State.tokens, State.ready_iff, State.all_iff, hs, Derivation.Everywhere, and_comm]

theorem operator_takes (s : State) (signs : Signs) (p : Derivation .suffixed) (op : Operator) (i : Nat)
    (hs : s.focus = .complete signs p) :
    Takes s [mark op.mark i] { s with
      stack := .operator (reduce op.level (.operand (sign signs p)) s.stack).1 op i ::
        (reduce op.level (.operand (sign signs p)) s.stack).2,
      focus := .operand [] } none := by
  have hy := yield_reduce op.level (.operand (sign signs p)) s.stack
  have hl := lawful_reduce op.level (.operand (sign signs p)) s.stack
  refine ⟨?_, fun h => ?_, ?_⟩
  · have hy' := congrArg (· ++ [mark op.mark i]) hy
    simp only [List.append_assoc] at hy'
    simp [State.tokens, hs, hy']
  · have hp : p.Preferred := by simpa [hs] using h.all.focus
    have hlevel := Derivation.level_le op
    obtain ⟨h₁, h₂, h₃, h₄, h₅, h₆⟩ := preferred_reduce op.level (.operand (sign signs p)) s.stack
      ⟨trivial, (everywhere_sign signs p).mpr hp⟩ h.all.stack h.stacked (above_six s.stack) rfl
      (by simp only [Derivation.level]; omega)
    exact ⟨⟨h.all.declarations, ⟨h₁, h₂⟩, trivial⟩, ⟨h₃, h₄, h₅⟩, h₆⟩
  · simp only [State.Lawful, State.all_iff, StackAll, Pending.All, hs, hl, Focus.All, Derivation.Everywhere,
      Derivation.HasLoneName, everywhere_sign]
    tauto

theorem continueMark_takes (s s' : State) (signs : Signs) (p : Derivation .suffixed) (m : Mark) (i : Nat)
    (slip : Option Nat) (hs : s.focus = .complete signs p)
    (h : s.continueMark signs p m i = some (s', slip)) : Takes s [mark m i] s' slip := by
  have hoperator (op : Operator) (h : s.continueMark signs p op.mark i = some (s', slip)) :
      Takes s [mark op.mark i] s' slip := by
    rw [State.continueMark_operator] at h
    obtain ⟨rfl, rfl⟩ := Prod.mk.inj (Option.some.inj h)
    exact operator_takes s signs p op i hs
  cases m
  case apply | index | dot =>
    obtain ⟨rfl, rfl⟩ := Prod.mk.inj (Option.some.inj h)
    constructor <;> simp +contextual [State.tokens, State.ready_iff, State.all_iff, hs, and_comm]
  case openParen | openBracket | openBrace | negate | bang | ifWord =>
    exact nextStatement_takes s s' signs p _ i slip hs h
  case closeParen | closeBracket | closeBrace | colon | thenWord | elseWord =>
    exact close_takes s s' signs p _ i slip hs h
  case arrow =>
    obtain ⟨hd, hh, h⟩ := Option.bind_eq_some_iff.mp h
    obtain ⟨rfl, rfl⟩ := Prod.mk.inj (Option.some.inj h)
    exact head?_takes s signs p i hd hs hh
  case assign =>
    simp only [State.continueMark] at h
    split at h
    · rename_i n hst hfs hn
      obtain ⟨rfl, rfl⟩ := Prod.mk.inj (Option.some.inj h)
      obtain ⟨rfl, rfl⟩ := name?_eq_some hn
      constructor <;> simp [State.tokens, State.ready_iff, State.all_iff, hs, hst, hfs, Derivation.Everywhere]
    · cases h
  case comma =>
    simp only [State.continueMark] at h
    split at h
    · rename_i j fs n hfs hn
      obtain ⟨rfl, rfl⟩ := Prod.mk.inj (Option.some.inj h)
      obtain ⟨rfl, rfl⟩ := name?_eq_some hn
      constructor <;> simp [State.tokens, State.ready_iff, State.all_iff, hs, hfs, Derivation.Everywhere]
    · exact close_takes s s' signs p _ i slip hs h
  case star => exact hoperator (.binary .mul) h
  case slash => exact hoperator (.binary .div) h
  case percent => exact hoperator (.binary .mod) h
  case plus => exact hoperator (.binary .add) h
  case minus => exact hoperator (.binary .sub) h
  case equal => exact hoperator (.binary .eq) h
  case unequal => exact hoperator (.binary .ne) h
  case less => exact hoperator (.binary .lt) h
  case atMost => exact hoperator (.binary .le) h
  case greater => exact hoperator (.binary .gt) h
  case atLeast => exact hoperator (.binary .ge) h
  case both => exact hoperator (.connective .and) h
  case either => exact hoperator (.connective .or) h

theorem continue_takes (s s' : State) (signs : Signs) (p : Derivation .suffixed) (x : Lexeme) (i : Nat)
    (slip : Option Nat) (hs : s.focus = .complete signs p)
    (h : s.continue signs p x i = some (s', slip)) : Takes s [⟨x, i⟩] s' slip := by
  cases x with
  | mark m => exact continueMark_takes s s' signs p m i slip hs h
  | name n => exact nextStatement_takes s s' signs p _ i slip hs h
  | literal c => exact nextStatement_takes s s' signs p _ i slip hs h
  | string t =>
    simp only [State.continue] at h
    split at h
    · rename_i n hst hfs hn hds
      obtain ⟨rfl, rfl⟩ := Prod.mk.inj (Option.some.inj h)
      obtain ⟨rfl, rfl⟩ := name?_eq_some hn
      constructor <;>
        simp [State.tokens, State.ready_iff, State.all_iff, hs, hst, hfs, hds, Derivation.Everywhere]
    · exact nextStatement_takes s s' signs p _ i slip hs h

theorem step_takes (s s' : State) (x : Lexeme) (i : Nat) (slip : Option Nat)
    (h : s.step x i = some (s', slip)) : Takes s [⟨x, i⟩] s' slip := by
  unfold State.step at h
  split at h
  · rename_i signs hs
    obtain ⟨t, ht, h⟩ := Option.map_eq_some_iff.mp h
    obtain ⟨rfl, rfl⟩ := Prod.mk.inj h
    exact begin_takes s t signs _ i hs ht
  · rename_i signs p hs
    exact continue_takes s s' signs p _ i slip hs h
  all_goals cases h
  all_goals
    rename_i hs
    constructor <;>
      simp +contextual [State.tokens, State.ready_iff, State.all_iff, hs, Derivation.Everywhere, and_comm]

/-! ## Runs -/

theorem run_takes (s s' : State) (ts : List Token) (h : s.run ts = some s') :
    s'.tokens = s.tokens ++ ts ∧ (s.Ready → s'.Ready) ∧ (s'.Lawful → s.Lawful) := by
  induction ts generalizing s with
  | nil =>
    obtain rfl := Option.some.inj h
    simp
  | cons t ts ih =>
    obtain ⟨⟨u, slip⟩, hu, h⟩ := Option.bind_eq_some_iff.mp h
    have hstep := step_takes s u t.lexeme t.start slip hu
    obtain ⟨htokens, hready, hlawful⟩ := ih u h
    refine ⟨?_, fun hs => hready (hstep.ready hs), fun hs => (hstep.lawful.mp (hlawful hs)).1⟩
    rw [htokens, hstep.tokens, List.append_assoc]
    rfl

theorem yield_whole (s : State) (ds : Option (Derivation .declarations)) (e : Option (Derivation .expr)) :
    (s.whole ds e).yield =
      s.imports.flatMap Derivation.yield ++ declaredTokens ds ++ (e.map Derivation.yield).getD [] := by
  unfold State.whole
  induction s.imports with
  | nil => cases ds <;> cases e <;> simp [statements]
  | cons i is ih => simp [ih]

theorem everywhere_whole (P : Derivation .expr → Prop) (s : State) (ds : Option (Derivation .declarations))
    (e : Option (Derivation .expr)) :
    (s.whole ds e).Everywhere P ↔ (∀ d ∈ ds, d.Everywhere P) ∧ ∀ d ∈ e, d.Everywhere P := by
  unfold State.whole
  induction s.imports with
  | nil => cases ds <;> cases e <;> simp [statements, Derivation.Everywhere]
  | cons i is ih => simpa [Derivation.Everywhere] using ih

theorem finish_builds (s : State) (d : Derivation .module) (slip : Option Nat)
    (h : s.finish = some (d, slip)) :
    d.yield = s.tokens ∧ (s.Ready → d.Preferred) ∧ (d.Lawful ↔ s.Lawful ∧ slip = none) := by
  match hs : s.focus with
  | .operand [] =>
    match hst : s.statement, hfs : s.stack with
    | .body, [] =>
      simp only [State.finish, hs, hst, hfs] at h
      obtain ⟨rfl, rfl⟩ := Prod.mk.inj (Option.some.inj h)
      refine ⟨by simp [yield_whole, State.tokens, hs, hst, hfs], fun hr => ?_, ?_⟩
      · simpa [everywhere_whole] using hr.all.declarations
      · simp [everywhere_whole, State.all_iff, hs, hfs]
    | .declaration _ _, _ | .body, _ :: _ => simp [State.finish, hs, hst, hfs] at h
  | .complete signs p =>
    have hy := yield_closing signs p s.stack
    have hp := preferred_closing signs p s hs
    have hl := lawful_closing signs p s.stack
    have ha := State.all_iff Derivation.HasLoneName s
    match hst : s.statement, hc : closing signs p s.stack with
    | .body, (e, []) | .declaration n i, (e, []) =>
      simp only [State.finish, hs, hst, hc] at h
      obtain ⟨rfl, rfl⟩ := Prod.mk.inj (Option.some.inj h)
      simp only [hc, hs, Focus.All, StackAll, stackTokens, List.nil_append, and_true] at hy hp hl ha
      refine ⟨by simp [yield_whole, State.tokens, hs, hst, hy], fun hr => ?_, ?_⟩
      · simpa [everywhere_whole] using ⟨hr.all.declarations, (hp hr).1⟩
      · refine Iff.trans (b := (∀ ds ∈ s.declarations, ds.Lawful) ∧ e.Lawful) (by simp [everywhere_whole]) ?_
        rw [hl, State.Lawful, ha]
        simp only [and_assoc, and_left_comm, and_comm]
    | .body, (_, _ :: _) | .declaration _ _, (_, _ :: _) => simp [State.finish, hs, hst, hc] at h
  | .operand (_ :: _) | .afterDot _ _ _ | .param _ _ _ _ | .paramNamed _ _ _ _ | .arrow _
  | .fieldName _ _ _ | .fieldColon _ _ _ _ => simp [State.finish, hs] at h

end LazyModules.Grammar
