import LazyModules.Proofs.Grammar.Soundness

/-!
# The builder finds every derivation that the precedences choose

* `runs`: what the builder does with the tokens of a derivation, by induction on the derivation.
* `build_yield`: on the tokens of a whole module it ends with the derivation they came from.
-/
namespace LazyModules.Grammar

open Parse (Operator)

/-- The builder gets from `s` to `s'` with the tokens `ts`. -/
def Reaches (s : State) (ts : List Token) (s' : State) : Prop := s.run ts = some s'

theorem Reaches.refl (s : State) : Reaches s [] s := rfl

theorem Reaches.trans {s s' s'' : State} {ts us : List Token} (h : Reaches s ts s') (h' : Reaches s' us s'') :
    Reaches s (ts ++ us) s'' := by
  induction ts generalizing s with
  | nil =>
    obtain rfl := Option.some.inj h
    exact h'
  | cons t ts ih =>
    obtain ⟨r, hr, h⟩ := Option.bind_eq_some_iff.mp h
    exact Option.bind_eq_some_iff.mpr ⟨r, hr, ih h⟩

theorem Reaches.step {s s' : State} {x : Lexeme} {i : Nat} (h : (s.step x i).map Prod.fst = some s') :
    Reaches s [⟨x, i⟩] s' := by
  obtain ⟨r, hr, rfl⟩ := Option.map_eq_some_iff.mp h
  exact Option.bind_eq_some_iff.mpr ⟨r, hr, rfl⟩

/-! ## The token after an expression -/

/-- The state `s` with another stack and after an operand. -/
abbrev State.atEnd (s : State) (fs : List Pending) (signs : Signs) (p : Derivation .suffixed) : State :=
  { s with stack := fs, focus := .complete signs p }

abbrev State.atStart (s : State) (fs : List Pending) : State := { s with stack := fs, focus := .operand [] }

section

variable {s s' : State} {gs fs : List Pending} {signs : Signs} {p : Derivation .suffixed}
  {e : Derivation .expr} {m : Mark}

/-- A comma after an expression belongs to what is around the expression, if that is not a group. -/
theorem continueMark_comma (hg : ∀ h fs', fs ≠ .group [] h :: fs') (hc : closing signs p gs = (e, fs))
    (i : Nat) : (s.atEnd gs signs p).continueMark signs p .comma i = (s.atEnd gs signs p).close signs p .comma i := by
  simp only [State.continueMark]
  split
  · rename_i h fs' n hn
    simp only [closing, closeExpr, Prod.mk.injEq] at hc
    exact absurd hc.2.symm (hg h fs')
  · rfl

/-- The mark after an expression goes to what is around it. -/
theorem reaches_close (hm : m ∈ [Mark.closeParen, .closeBracket, .closeBrace, .thenWord, .elseWord] ∨
      m = .comma ∧ ∀ h fs', fs ≠ .group [] h :: fs')
    (hc : closing signs p gs = (e, fs)) (i : Nat)
    (h : ((s.atEnd gs signs p).close signs p m i).map Prod.fst = some s') :
    Reaches (s.atEnd gs signs p) [mark m i] s' := by
  have hclose : (s.atEnd gs signs p).step (.mark m) i = (s.atEnd gs signs p).close signs p m i := by
    rcases hm with hm | ⟨rfl, hg⟩
    · simp only [List.mem_cons, List.not_mem_nil, or_false] at hm
      rcases hm with rfl | rfl | rfl | rfl | rfl <;> rfl
    · exact continueMark_comma hg hc i
  exact Reaches.step (hclose ▸ h)

theorem reaches_then {h : Nat} (hc : closing signs p gs = (e, .test h :: fs)) (i : Nat) :
    Reaches (s.atEnd gs signs p) [mark .thenWord i] (s.atStart (.yes h e i :: fs)) :=
  reaches_close (.inl (by simp)) hc i (by simp [State.close, hc])

theorem reaches_else {h j : Nat} {t : Derivation .expr} (hc : closing signs p gs = (e, .yes h t j :: fs))
    (i : Nat) : Reaches (s.atEnd gs signs p) [mark .elseWord i] (s.atStart (.no h t j e i :: fs)) :=
  reaches_close (.inl (by simp)) hc i (by simp [State.close, hc])

theorem reaches_group {h : Nat} {sg : Signs} (hc : closing signs p gs = (e, .group sg h :: fs)) (i : Nat) :
    Reaches (s.atEnd gs signs p) [mark .closeParen i]
      (s.atEnd fs sg (.primary (.grouped (.parens h e i)))) :=
  reaches_close (.inl (by simp)) hc i (by simp [State.close, hc])

theorem reaches_subscript {h : Nat} {sg : Signs} {q : Derivation .suffixed}
    (hc : closing signs p gs = (e, .subscript sg q h :: fs)) (i : Nat) :
    Reaches (s.atEnd gs signs p) [mark .closeBracket i] (s.atEnd fs sg (.subscript q h e i)) :=
  reaches_close (.inl (by simp)) hc i (by simp [State.close, hc])

theorem reaches_brace {h j : Nat} {sg : Signs} {done : Listed .field} {n : Derivation .name}
    (hc : closing signs p gs = (e, .field sg h done n j :: fs)) (i : Nat) :
    Reaches (s.atEnd gs signs p) [mark .closeBrace i]
      (s.atEnd fs sg (.primary (.record h (.exactly (done.add (.field n j e))) i))) :=
  reaches_close (.inl (by simp)) hc i (by simp [State.close, hc])

theorem reaches_fieldComma {h j : Nat} {sg : Signs} {done : Listed .field} {n : Derivation .name}
    (hc : closing signs p gs = (e, .field sg h done n j :: fs)) (i : Nat) :
    Reaches (s.atEnd gs signs p) [mark .comma i]
      { s with stack := fs, focus := .fieldName sg h (some (done.add (.field n j e), i)) } :=
  reaches_close (.inr ⟨rfl, by simp⟩) hc i (by simp [State.close, hc])

theorem reaches_comma {o : Opening} {done : Listed .expr} (hc : closing signs p gs = (e, .sequence o done :: fs))
    (i : Nat) : Reaches (s.atEnd gs signs p) [mark .comma i]
      (s.atStart (.sequence o (some (done.add e, i)) :: fs)) :=
  reaches_close (.inr ⟨rfl, by simp⟩) hc i (by simp [State.close, hc])

theorem reaches_closer {o : Opening} {done : Listed .expr} (hc : closing signs p gs = (e, .sequence o done :: fs))
    (i : Nat) : Reaches (s.atEnd gs signs p) [mark o.closer i]
      { s with stack := fs, focus := o.close (.exactly (done.add e)) i } :=
  reaches_close (.inl (by cases o <;> simp [Opening.closer])) hc i
    (by cases o <;> simp [State.close, hc, Opening.closer])

end

/-! ## The tokens of an expression -/

/-- What the builder does with the tokens of a derivation. An expression leaves phrases open, which close
as if the expression stood there finished; all else is finished with its last token. -/
def Runs : {x : Phrase} → Derivation x → Prop
  | .expr, e => ∀ (s : State) (fs : List Pending), Above e.level fs →
      ∃ gs signs p, Reaches (s.atStart fs) e.yield (s.atEnd gs signs p) ∧
        closing signs p gs = closeExpr e fs ∧
        (e.isOpen = false → ∀ level ≤ e.level,
          reduce level (.operand (sign signs p)) gs = reduce level e fs)
  | .unary, u => ∀ (s : State) (signs : Signs), s.focus = .operand signs →
      ∃ signs' p, Reaches s u.yield { s with focus := .complete signs' p } ∧
        sign signs' p = signs.foldl (fun u s => .signed s.1 s.2 u) u
  | .suffixed, p => ∀ (s : State) (signs : Signs), s.focus = .operand signs →
      Reaches s p.yield { s with focus := .complete signs p }
  | .primary, p => ∀ (s : State) (signs : Signs), s.focus = .operand signs →
      Reaches s p.yield { s with focus := .complete signs (.primary p) }
  | .parenthesized, p => ∀ (s : State) (signs : Signs), s.focus = .operand signs →
      Reaches s p.yield { s with focus := .complete signs (.primary (.grouped p)) }
  | .field, f => ∀ (s : State) (signs : Signs) (h : Nat) (done : Listed .field),
      s.focus = .fieldName signs h done → ∃ gs sg p n j e, f = .field n j e ∧
        Reaches s f.yield (s.atEnd gs sg p) ∧ closing sg p gs = (e, .field signs h done n j :: s.stack)
  | .some .expr, es => ∀ (s : State) (o : Opening) (fs : List Pending),
      ∃ gs signs p e done, Listed.add done e = es ∧
        Reaches (s.atStart (.sequence o none :: fs)) es.yield (s.atEnd gs signs p) ∧
        closing signs p gs = (e, .sequence o done :: fs)
  | .some .field, es => ∀ (s : State) (signs : Signs) (h : Nat), s.focus = .fieldName signs h none →
      ∃ gs sg p done n j e, Listed.add done (.field n j e) = es ∧
        Reaches s es.yield (s.atEnd gs sg p) ∧ closing sg p gs = (e, .field signs h done n j :: s.stack)
  | .some .name, ns => ∀ (s : State) (h : Nat) (n : Derivation .name) (j : Nat), s.focus = .param h n j none →
      Reaches s ns.yield { s with focus := .paramNamed h n j ns }
  | .items .expr, es => ∀ (s : State) (o : Opening) (fs : List Pending) (j : Nat),
      Reaches (s.atStart (.sequence o none :: fs)) (es.yield ++ [mark o.closer j])
        { s with stack := fs, focus := o.close es j }
  | .items .field, es => ∀ (s : State) (signs : Signs) (h j : Nat), s.focus = .fieldName signs h none →
      Reaches s (es.yield ++ [mark .closeBrace j])
        { s with focus := .complete signs (.primary (.record h es j)) }
  | _, _ => True

theorem above_mono {a b : Nat} (h : a ≤ b) {fs : List Pending} (ha : Above a fs) : Above b fs := by
  match fs with
  | .operator _ _ _ :: _ => exact Nat.lt_of_lt_of_le ha h
  | [] | .test _ :: _ | .yes _ _ _ :: _ | .no _ _ _ _ _ :: _ | .lambda _ _ :: _ | .group _ _ :: _
  | .sequence _ _ :: _ | .subscript _ _ _ :: _ | .field _ _ _ _ _ :: _ => trivial

/-- Nothing is completed by an operator that binds tighter than what the stack ends with. -/
theorem reduce_above {level : Nat} {fs : List Pending} (h : Above level fs) (e : Derivation .expr) :
    reduce level e fs = (e, fs) := by
  match fs with
  | .operator _ _ _ :: _ => exact if_neg (Nat.not_le.mpr h)
  | [] | .test _ :: _ | .yes _ _ _ :: _ | .no _ _ _ _ _ :: _ | .lambda _ _ :: _ | .group _ _ :: _
  | .sequence _ _ :: _ | .subscript _ _ _ :: _ | .field _ _ _ _ _ :: _ => rfl

theorem runs_operand (u : Derivation .unary) (hu : Runs u) : Runs (.operand u) := by
  intro s fs _
  obtain ⟨signs, p, hr, hs⟩ := hu (s.atStart fs) [] rfl
  exact ⟨fs, signs, p, hr, by simp [closing, hs], fun _ _ _ => by simp [hs]⟩

theorem runs_binary (l : Derivation .expr) (op : Operator) (i : Nat) (r : Derivation .expr)
    (hp : (Derivation.binary l op i r).IsGrouped) (hl : Runs l) (hr : Runs r) :
    Runs (.binary l op i r) := by
  intro s fs ha
  obtain ⟨hopen, hle, hlt⟩ := hp
  obtain ⟨gs, signs, p, h₁, -, hreduce⟩ := hl s fs (above_mono hle ha)
  have hop : Reaches (s.atEnd gs signs p) [mark op.mark i] (s.atStart (.operator l op i :: fs)) := by
    apply Reaches.step
    have hl : reduce op.level (.operand (sign signs p)) gs = (l, fs) := by
      rw [hreduce hopen _ hle]
      exact reduce_above ha l
    simp [State.step, State.continue, State.continueMark_operator, hl]
  obtain ⟨gs', signs', p', h₂, hc, hreduce'⟩ := hr s (.operator l op i :: fs) hlt
  refine ⟨gs', signs', p', by simpa using (h₁.trans hop).trans h₂, hc, fun ho level hlevel => ?_⟩
  have hlevel : level ≤ op.level := hlevel
  rw [hreduce' ho level (by omega), reduce, if_pos hlevel]

theorem runs_conditional (i : Nat) (t : Derivation .expr) (j : Nat) (y : Derivation .expr) (k : Nat)
    (n : Derivation .expr) (ht : Runs t) (hy : Runs y) (hn : Runs n) : Runs (.conditional i t j y k n) := by
  intro s fs _
  have hif : Reaches (s.atStart fs) [mark .ifWord i] (s.atStart (.test i :: fs)) := Reaches.step rfl
  obtain ⟨gs₁, signs₁, p₁, h₁, hc₁, -⟩ := ht s (.test i :: fs) trivial
  have hthen := reaches_then (s := s) hc₁ j
  obtain ⟨gs₂, signs₂, p₂, h₂, hc₂, -⟩ := hy s (.yes i t j :: fs) trivial
  have helse := reaches_else (s := s) hc₂ k
  obtain ⟨gs₃, signs₃, p₃, h₃, hc₃, -⟩ := hn s (.no i t j y k :: fs) trivial
  have h := hif.trans (h₁.trans (hthen.trans (h₂.trans (helse.trans h₃))))
  exact ⟨gs₃, signs₃, p₃, by simpa using h, hc₃, by simp [Derivation.isOpen]⟩

/-- A function runs if the tokens before its body lead to its body. -/
theorem runs_lambda (hd : Head) (i : Nat) (e : Derivation .expr) (he : Runs e)
    (h : ∀ (s : State) (fs : List Pending),
      Reaches (s.atStart fs) (hd.tokens ++ [mark .arrow i]) (s.atStart (.lambda hd i :: fs))) :
    Runs (hd.lambda i e) := by
  intro s fs _
  obtain ⟨gs, signs, p, h₁, hc, -⟩ := he s (.lambda hd i :: fs) trivial
  have hopen : (hd.lambda i e).isOpen = true := by
    match hd with
    | .one _ | .paren _ | .params (.none _ _) | .params (.many _ _ _ _ _) => rfl
  exact ⟨gs, signs, p, by simpa using (h s fs).trans h₁, hc, by simp [hopen]⟩

theorem reaches_name (s : State) (signs : Signs) (n : Derivation .name) (hs : s.focus = .operand signs) :
    Reaches s n.yield { s with focus := .complete signs (.primary (.lookup n)) } := by
  cases n with
  | name t i => exact Reaches.step (by simp [State.step, hs, State.begin])

theorem runs_lambdaOne (n : Derivation .name) (i : Nat) (e : Derivation .expr) (he : Runs e) :
    Runs (.lambdaOne n i e) := by
  refine runs_lambda (.one n) i e he fun s fs => (reaches_name _ [] n rfl).trans ?_
  exact Reaches.step rfl

theorem runs_lambdaParen (p : Derivation .parenthesized) (i : Nat) (e : Derivation .expr) (hp : Runs p)
    (he : Runs e) : Runs (.lambdaParen p i e) := by
  refine runs_lambda (.paren p) i e he fun s fs => (hp _ [] rfl).trans ?_
  exact Reaches.step rfl

theorem runs_lambdaNone (i j k : Nat) (e : Derivation .expr) (he : Runs e) : Runs (.lambdaNone i j k e) :=
  runs_lambda (.params (.none i j)) k e he fun _ _ => rfl

theorem runs_lambdaMany (i : Nat) (n : Derivation .name) (j : Nat) (ns : Derivation (.some .name)) (k l : Nat)
    (e : Derivation .expr) (hns : Runs ns) (he : Runs e) : Runs (.lambdaMany i n j ns k l e) := by
  refine runs_lambda (.params (.many i n j ns k)) l e he fun s fs => ?_
  have hopen : Reaches (s.atStart fs) [mark .openParen i] (s.atStart (.group [] i :: fs)) := Reaches.step rfl
  have hname := reaches_name (s.atStart (.group [] i :: fs)) [] n rfl
  have hcomma : Reaches (s.atEnd (.group [] i :: fs) [] (.primary (.lookup n))) [mark .comma j]
      { s with stack := fs, focus := .param i n j none } := Reaches.step rfl
  have hnames := hns { s with stack := fs, focus := .param i n j none } i n j rfl
  have harrow : Reaches { s with stack := fs, focus := .paramNamed i n j ns }
      [mark .closeParen k, mark .arrow l] (s.atStart (.lambda (.params (.many i n j ns k)) l :: fs)) := rfl
  simpa using hopen.trans (hname.trans (hcomma.trans (hnames.trans harrow)))

/-! ## The tokens of an operand -/

theorem runs_unsigned (p : Derivation .suffixed) (hp : Runs p) : Runs (.unsigned p) :=
  fun s signs hs => ⟨signs, p, hp s signs hs, rfl⟩

theorem runs_signed (op : UnaryOp) (i : Nat) (u : Derivation .unary) (hu : Runs u) :
    Runs (.signed op i u) := by
  intro s signs hs
  have hop : Reaches s [mark op.mark i] { s with focus := .operand ((op, i) :: signs) } :=
    Reaches.step (by cases op <;> simp [State.step, hs, State.begin, UnaryOp.mark])
  obtain ⟨signs', p, hr, h⟩ := hu { s with focus := .operand ((op, i) :: signs) } _ rfl
  exact ⟨signs', p, hop.trans hr, h⟩

theorem runs_call (f : Derivation .suffixed) (i : Nat) (args : Derivation (.items .expr)) (j : Nat)
    (hf : Runs f) (hargs : Runs args) : Runs (.call f i args j) := by
  intro s signs hs
  have hopen : Reaches (s.atEnd s.stack signs f) [mark .apply i]
      (s.atStart (.sequence (.args signs f i) none :: s.stack)) := Reaches.step rfl
  simpa [Opening.closer, Opening.close] using
    (hf s signs hs).trans (hopen.trans (hargs s (.args signs f i) s.stack j))

theorem runs_member (p : Derivation .suffixed) (i : Nat) (n : Derivation .name) (hp : Runs p) :
    Runs (.member p i n) := by
  intro s signs hs
  have hdot : Reaches (s.atEnd s.stack signs p) (mark .dot i :: n.yield)
      (s.atEnd s.stack signs (.member p i n)) := by
    cases n with
    | name t j => rfl
  exact (hp s signs hs).trans hdot

theorem runs_subscript (p : Derivation .suffixed) (i : Nat) (e : Derivation .expr) (j : Nat) (hp : Runs p)
    (he : Runs e) : Runs (.subscript p i e j) := by
  intro s signs hs
  have hopen : Reaches (s.atEnd s.stack signs p) [mark .index i]
      (s.atStart (.subscript signs p i :: s.stack)) := Reaches.step rfl
  obtain ⟨gs, sg, q, h, hc, -⟩ := he s (.subscript signs p i :: s.stack) trivial
  have hclose := reaches_subscript (s := s) hc j
  simpa using (hp s signs hs).trans (hopen.trans (h.trans hclose))

theorem runs_parens (i : Nat) (e : Derivation .expr) (j : Nat) (he : Runs e) : Runs (.parens i e j) := by
  intro s signs hs
  have hopen : Reaches s [mark .openParen i] (s.atStart (.group signs i :: s.stack)) :=
    Reaches.step (by simp [State.step, hs, State.begin])
  obtain ⟨gs, sg, q, h, hc, -⟩ := he s (.group signs i :: s.stack) trivial
  have hclose := reaches_group (s := s) hc j
  simpa using hopen.trans (h.trans hclose)

theorem runs_list (i : Nat) (es : Derivation (.items .expr)) (j : Nat) (hes : Runs es) :
    Runs (.list i es j) := by
  intro s signs hs
  have hopen : Reaches s [mark .openBracket i] (s.atStart (.sequence (.list signs i) none :: s.stack)) :=
    Reaches.step (by simp [State.step, hs, State.begin])
  simpa [Opening.closer, Opening.close] using hopen.trans (hes s (.list signs i) s.stack j)

theorem runs_record (i : Nat) (fs : Derivation (.items .field)) (j : Nat) (hfs : Runs fs) :
    Runs (.record i fs j) := by
  intro s signs hs
  have hopen : Reaches s [mark .openBrace i] { s with focus := .fieldName signs i none } :=
    Reaches.step (by simp [State.step, hs, State.begin])
  simpa using hopen.trans (hfs { s with focus := .fieldName signs i none } signs i j rfl)

/-! ## The tokens of a sequence -/

theorem runs_field (n : Derivation .name) (i : Nat) (e : Derivation .expr) (he : Runs e) :
    Runs (.field n i e) := by
  intro s signs h done hs
  have hname : Reaches s (n.yield ++ [mark .colon i]) (s.atStart (.field signs h done n i :: s.stack)) := by
    cases n with
    | name t j => simp [Reaches, State.run, State.step, hs]
  obtain ⟨gs, sg, p, hr, hc, -⟩ := he s (.field signs h done n i :: s.stack) trivial
  exact ⟨gs, sg, p, n, i, e, rfl, by simpa using hname.trans hr, hc⟩

theorem runs_first_expr (e : Derivation .expr) (he : Runs e) : Runs (.first e) := by
  intro s o fs
  obtain ⟨gs, signs, p, hr, hc, -⟩ := he s (.sequence o none :: fs) trivial
  exact ⟨gs, signs, p, e, none, rfl, hr, hc⟩

theorem runs_more_expr (es : Derivation (.some .expr)) (i : Nat) (e : Derivation .expr) (hes : Runs es)
    (he : Runs e) : Runs (.more es i e) := by
  intro s o fs
  obtain ⟨gs, signs, p, d, done, rfl, hr, hc⟩ := hes s o fs
  have hcomma := reaches_comma (s := s) hc i
  obtain ⟨gs', signs', p', hr', hc', -⟩ := he s (.sequence o (some (done.add d, i)) :: fs) trivial
  exact ⟨gs', signs', p', e, some (done.add d, i), rfl, by simpa using hr.trans (hcomma.trans hr'), hc'⟩

theorem runs_first_field (f : Derivation .field) (hf : Runs f) : Runs (.first f) := by
  intro s signs h hs
  obtain ⟨gs, sg, p, n, j, e, rfl, hr, hc⟩ := hf s signs h none hs
  exact ⟨gs, sg, p, none, n, j, e, rfl, hr, hc⟩

theorem runs_more_field (fs : Derivation (.some .field)) (i : Nat) (f : Derivation .field) (hfs : Runs fs)
    (hf : Runs f) : Runs (.more fs i f) := by
  intro s signs h hs
  obtain ⟨gs, sg, p, done, n, j, e, rfl, hr, hc⟩ := hfs s signs h hs
  have hcomma := reaches_fieldComma (s := s) hc i
  obtain ⟨gs', sg', p', n', j', e', rfl, hr', hc'⟩ := hf { s with focus := .fieldName signs h _ } signs h _ rfl
  exact ⟨gs', sg', p', _, n', j', e', rfl, by simpa using hr.trans (hcomma.trans hr'), hc'⟩

theorem runs_names (ns : Derivation (.some .name)) : Runs ns := by
  intro s h m j hs
  match ns with
  | .first (.name t i) => simp [Reaches, State.run, State.step, hs, Listed.add]
  | .more ns i (.name t k) =>
    have hmore : Reaches { s with focus := .paramNamed h m j ns } (mark .comma i :: [⟨.name t, k⟩])
        { s with focus := .paramNamed h m j (.more ns i (.name t k)) } := rfl
    exact (runs_names ns s h m j hs).trans hmore

theorem runs_exactly_expr (es : Derivation (.some .expr)) (hes : Runs es) : Runs (.exactly es) := by
  intro s o fs j
  obtain ⟨gs, signs, p, e, done, rfl, hr, hc⟩ := hes s o fs
  exact hr.trans (reaches_closer hc j)

theorem runs_spare_expr (es : Derivation (.some .expr)) (i : Nat) (hes : Runs es) : Runs (.spare es i) := by
  intro s o fs j
  obtain ⟨gs, signs, p, e, done, rfl, hr, hc⟩ := hes s o fs
  have hcomma := reaches_comma (s := s) hc i
  have hclose : Reaches (s.atStart (.sequence o (some (done.add e, i)) :: fs)) [mark o.closer j]
      { s with stack := fs, focus := o.close (.spare (done.add e) i) j } := Reaches.step (by cases o <;> rfl)
  simpa using hr.trans (hcomma.trans hclose)

theorem runs_exactly_field (fs : Derivation (.some .field)) (hfs : Runs fs) : Runs (.exactly fs) := by
  intro s signs h j hs
  obtain ⟨gs, sg, p, done, n, k, e, rfl, hr, hc⟩ := hfs s signs h hs
  exact hr.trans (reaches_brace hc j)

theorem runs_spare_field (fs : Derivation (.some .field)) (i : Nat) (hfs : Runs fs) : Runs (.spare fs i) := by
  intro s signs h j hs
  obtain ⟨gs, sg, p, done, n, k, e, rfl, hr, hc⟩ := hfs s signs h hs
  have hcomma := reaches_fieldComma (s := s) hc i
  have hclose : Reaches { s with focus := .fieldName signs h (some (done.add (.field n k e), i)) }
      [mark .closeBrace j]
      { s with focus := .complete signs (.primary (.record h (.spare (done.add (.field n k e)) i) j)) } :=
    Reaches.step rfl
  simpa using hr.trans (hcomma.trans hclose)

/-- The builder takes the tokens of every derivation that the precedences choose. -/
theorem runs {x : Phrase} (d : Derivation x) (h : d.Preferred) : Runs d := by
  induction d with
  | operand u ih => exact runs_operand u (ih h.2)
  | binary l op i r ihl ihr => exact runs_binary l op i r h.1 (ihl h.2.1) (ihr h.2.2)
  | conditional i t j y k n iht ihy ihn =>
    exact runs_conditional i t j y k n (iht h.2.1) (ihy h.2.2.1) (ihn h.2.2.2)
  | lambdaOne n i e _ ih => exact runs_lambdaOne n i e (ih h.2)
  | lambdaParen p i e ihp ihe => exact runs_lambdaParen p i e (ihp h.2.1) (ihe h.2.2)
  | lambdaNone i j k e ih => exact runs_lambdaNone i j k e (ih h.2)
  | lambdaMany i n j ns k l e _ _ ihe => exact runs_lambdaMany i n j ns k l e (runs_names ns) (ihe h.2)
  | unsigned p ih => exact runs_unsigned p (ih h)
  | signed op i u ih => exact runs_signed op i u (ih h)
  | primary p ih => exact ih h
  | call f i args j ihf ihargs => exact runs_call f i args j (ihf h.1) (ihargs h.2)
  | member p i n ihp _ => exact runs_member p i n (ihp h)
  | subscript p i e j ihp ihe => exact runs_subscript p i e j (ihp h.1) (ihe h.2)
  | literal c i => exact fun s signs hs => Reaches.step (by simp [State.step, hs, State.begin])
  | string t i => exact fun s signs hs => Reaches.step (by simp [State.step, hs, State.begin])
  | lookup n _ => exact fun s signs hs => reaches_name s signs n hs
  | grouped p ih => exact ih h
  | list i es j ih => exact runs_list i es j (ih h)
  | record i fs j ih => exact runs_record i fs j (ih h)
  | parens i e j ih => exact runs_parens i e j (ih h)
  | field n i e _ ih => exact runs_field n i e (ih h)
  | @none x =>
    cases x with
    | expr => exact fun s o fs j => Reaches.step (by cases o <;> rfl)
    | field => exact fun s signs i j hs => Reaches.step (by simp [State.step, hs, Listed.items])
    | _ => trivial
  | @exactly x es ih =>
    cases x with
    | expr => exact runs_exactly_expr es (ih h)
    | field => exact runs_exactly_field es (ih h)
    | _ => trivial
  | @spare x es i ih =>
    cases x with
    | expr => exact runs_spare_expr es i (ih h)
    | field => exact runs_spare_field es i (ih h)
    | _ => trivial
  | @first x d ih =>
    cases x with
    | expr => exact runs_first_expr d (ih h)
    | field => exact runs_first_field d (ih h)
    | name => exact runs_names _
    | _ => trivial
  | @more x es i d ihes ihd =>
    cases x with
    | expr => exact runs_more_expr es i d (ihes h.1) (ihd h.2)
    | field => exact runs_more_field es i d (ihes h.1) (ihd h.2)
    | name => exact runs_names _
    | _ => trivial
  | _ => trivial

/-! ## The tokens of a module -/

/-- Tokens that an expression can begin with, and more after them. -/
def Begins (ts : List Token) : Prop := ∃ t us, ts = t :: us ∧ Parse.beginsExpr t.lexeme = true

theorem Begins.append {ts : List Token} (h : Begins ts) (us : List Token) : Begins (ts ++ us) := by
  obtain ⟨t, vs, rfl, ht⟩ := h
  exact ⟨t, vs ++ us, rfl, ht⟩

/-- What begins with an expression or a name begins like an expression. -/
def BeginsSpec : {x : Phrase} → Derivation x → Prop
  | .expr, d | .unary, d | .suffixed, d | .primary, d | .parenthesized, d | .name, d => Begins d.yield
  | .declaration, d | .declarations, d => Begins d.yield
  | _, _ => True

theorem begins {x : Phrase} (d : Derivation x) : BeginsSpec d := by
  induction d with
  | name | conditional | lambdaNone | lambdaMany | literal | string | parens | list | record =>
    exact ⟨_, _, rfl, rfl⟩
  | signed op i u _ => cases op <;> exact ⟨_, _, rfl, rfl⟩
  | firstDeclaration _ ih | operand _ ih | unsigned _ ih | primary _ ih | lookup _ ih | grouped _ ih => exact ih
  | moreDeclarations _ _ ih _ | declaration _ _ _ ih _ | binary _ _ _ _ ih _ | lambdaOne _ _ _ ih _
  | lambdaParen _ _ _ ih _ | member _ _ _ ih _ => exact ih.append _
  | call _ _ _ _ ih _ | subscript _ _ _ _ ih _ => exact (ih.append _).append _
  | _ => trivial

/-- Before a statement, with these imports and declarations. -/
abbrev State.before (is : List (Derivation .directive)) (ds : Option (Derivation .declarations)) : State :=
  ⟨is, ds, .body, [], .operand []⟩

section

variable (is : List (Derivation .directive))

theorem reaches_declaration (ds : Option (Derivation .declarations)) (n : Derivation .name) (i : Nat)
    (e : Derivation .expr) (he : e.Preferred) :
    ∃ gs signs p, Reaches (.before is ds) (n.yield ++ mark .assign i :: e.yield)
        ⟨is, ds, .declaration n i, gs, .complete signs p⟩ ∧ closing signs p gs = (e, []) := by
  have hname := reaches_name (.before is ds) [] n rfl
  have hassign : Reaches (State.atEnd (.before is ds) [] [] (.primary (.lookup n))) [mark .assign i]
      ⟨is, ds, .declaration n i, [], .operand []⟩ := Reaches.step rfl
  obtain ⟨gs, signs, p, hr, hc, -⟩ := runs e he ⟨is, ds, .declaration n i, [], .operand []⟩ [] trivial
  exact ⟨gs, signs, p, hname.trans (hassign.trans hr), hc⟩

/-- A declaration ends where the next statement begins. -/
theorem Reaches.next {ds : Option (Derivation .declarations)} {n : Derivation .name} {i : Nat}
    {gs : List Pending} {signs : Signs} {p : Derivation .suffixed} {e : Derivation .expr} {ts : List Token}
    {s' : State} (hc : closing signs p gs = (e, [])) (hb : Begins ts)
    (h : Reaches (.before is (some (declare n i e ds))) ts s') :
    Reaches ⟨is, ds, .declaration n i, gs, .complete signs p⟩ ts s' := by
  obtain ⟨t, us, rfl, ht⟩ := hb
  obtain ⟨r, hr, hrun⟩ := Option.bind_eq_some_iff.mp h
  obtain ⟨s, hs, rfl⟩ := Option.map_eq_some_iff.mp hr
  refine Option.bind_eq_some_iff.mpr ⟨(s, firstSlip gs), ?_, hrun⟩
  have hnext : State.nextStatement ⟨is, ds, .declaration n i, gs, .complete signs p⟩ signs p t.lexeme t.start =
      some (s, firstSlip gs) := by
    simp [State.nextStatement, ht, hc, hs]
  match hx : t.lexeme with
  | .name _ | .literal _ | .string _ => rw [← hnext, hx]; rfl
  | .mark m =>
    rw [hx] at ht hnext
    cases m <;> first | exact hnext | simp [Parse.beginsExpr] at ht

theorem reaches_declarations (ds : Derivation .declarations) (h : ds.Preferred) :
    ∃ prev n i gs signs p e, Reaches (.before is none) ds.yield
        ⟨is, prev, .declaration n i, gs, .complete signs p⟩ ∧
      closing signs p gs = (e, []) ∧ declare n i e prev = ds := by
  match ds with
  | .firstDeclaration (.declaration n i e) =>
    obtain ⟨gs, signs, p, hr, hc⟩ := reaches_declaration is none n i e h
    exact ⟨none, n, i, gs, signs, p, e, hr, hc, rfl⟩
  | .moreDeclarations ds (.declaration n i e) =>
    obtain ⟨prev, m, j, gs, signs, p, d, hr, hc, rfl⟩ := reaches_declarations ds h.1
    obtain ⟨gs', signs', p', hr', hc'⟩ := reaches_declaration is (some (declare m j d prev)) n i e h.2
    have hb : Begins (Derivation.declaration n i e).yield := begins (.declaration n i e)
    exact ⟨_, n, i, gs', signs', p', e, hr.trans (Reaches.next is hc hb hr'), hc', rfl⟩

theorem reaches_statements (st : Derivation .statements) (h : st.Preferred) :
    ∃ s', Reaches (.before is none) st.yield s' ∧
      s'.finish.map Prod.fst = some (is.foldr .importing (.plain st)) := by
  match st with
  | .nothing => exact ⟨_, Reaches.refl _, rfl⟩
  | .bodyOnly e =>
    obtain ⟨gs, signs, p, hr, hc, -⟩ := runs e h (.before is none) [] trivial
    refine ⟨_, hr, ?_⟩
    rw [closeExpr.eq_def] at hc
    simp [State.finish, hc, State.whole, statements]
  | .declarationsOnly ds =>
    obtain ⟨prev, n, i, gs, signs, p, e, hr, hc, rfl⟩ := reaches_declarations is ds h
    exact ⟨_, hr, by simp [State.finish, hc, State.whole, statements]⟩
  | .declarationsBody ds e =>
    obtain ⟨prev, n, i, gs, signs, p, d, hr, hc, rfl⟩ := reaches_declarations is ds h.1
    obtain ⟨gs', signs', p', hr', hc', -⟩ := runs e h.2 (.before is (some (declare n i d prev))) [] trivial
    refine ⟨_, hr.trans (Reaches.next is hc (begins e) hr'), ?_⟩
    rw [closeExpr.eq_def] at hc'
    simp [State.finish, hc', State.whole, statements]

end

theorem reaches_module (is : List (Derivation .directive)) (m : Derivation .module) (h : m.Preferred) :
    ∃ s', Reaches (.before is none) m.yield s' ∧ s'.finish.map Prod.fst = some (is.foldr .importing m) := by
  match m with
  | .plain st => exact reaches_statements is st h
  | .importing (.directive n t i) m =>
    obtain ⟨s', hr, hf⟩ := reaches_module (is ++ [.directive n t i]) m h
    have hname := reaches_name (.before is none) [] n rfl
    have hstring : Reaches (State.atEnd (.before is none) [] [] (.primary (.lookup n))) [⟨.string t, i⟩]
        (.before (is ++ [.directive n t i]) none) := Reaches.step rfl
    exact ⟨s', by simpa using hname.trans (hstring.trans hr), by simpa using hf⟩

/-- The builder finds the derivation of its tokens that the precedences choose. -/
theorem build_yield (d : Derivation .module) (h : d.Preferred) : build d.yield = some d := by
  obtain ⟨s', hr, hf⟩ := reaches_module [] d h
  have hr : State.start.run d.yield = some s' := hr
  simpa [build, hr] using hf

end LazyModules.Grammar
