import LazyModules.Proofs.Grammar.Arrows

/-!
# Parentheses before an arrow

The grammar lets any expression stand in parentheses before an arrow, and the parse action asks for a lone name. It
asks the expression and not the tokens, and parentheses leave no trace in an expression: a name in parentheses of its own
is a lone name too.

**Results.**
* `balanced_yield`: the parentheses of every phrase match.
* `headed_arrows`: in a lawful derivation, every arrow stands right after the head of a function.
* `accepted_iff_parameters`: a text is read if and only if its tokens can be derived, and what stands in matching
  parentheses before an arrow is nothing, names with commas between them, or one name in any number of parentheses.
-/
namespace LazyModules.Grammar

/-! ## Matching parentheses -/

/-- How many parentheses are open after a lexeme; none if it closes one and none is open. -/
def depthAfter (depth : Nat) : Lexeme → Option Nat
  | .mark .openParen => some (depth + 1)
  | .mark .apply => some (depth + 1)
  | .mark .closeParen => if depth = 0 then none else some (depth - 1)
  | _ => some depth

/-- How many parentheses are open after some tokens. -/
def depthOf (depth : Nat) (ts : List Token) : Option Nat := ts.foldlM (fun d t => depthAfter d t.lexeme) depth

def Balanced (ts : List Token) : Prop := depthOf 0 ts = some 0

theorem depthOf_append (depth : Nat) (ts us : List Token) :
    depthOf depth (ts ++ us) = (depthOf depth ts).bind (depthOf · us) :=
  List.foldlM_append

theorem depthOf_cons (depth : Nat) (t : Token) (ts : List Token) :
    depthOf depth (t :: ts) = (depthAfter depth t.lexeme).bind (depthOf · ts) :=
  List.foldlM_cons

theorem depthAfter_add {d e : Nat} {x : Lexeme} (h : depthAfter d x = some e) (k : Nat) :
    depthAfter (d + k) x = some (e + k) := by
  unfold depthAfter at h ⊢
  split at h
  · simp only [Option.some.injEq] at h ⊢
    omega
  · simp only [Option.some.injEq] at h ⊢
    omega
  · split at h
    · cases h
    · simp only [Option.some.injEq] at h
      rw [if_neg (by omega)]
      simp only [Option.some.injEq]
      omega
  · simp only [Option.some.injEq] at h ⊢
    omega

/-- Inside other parentheses, tokens open and close as many as they do outside. -/
theorem depthOf_add {d e : Nat} {ts : List Token} (h : depthOf d ts = some e) (k : Nat) :
    depthOf (d + k) ts = some (e + k) := by
  induction ts generalizing d with
  | nil =>
    cases h
    rfl
  | cons t ts ih =>
    rw [depthOf_cons] at h ⊢
    obtain ⟨c, hc, h⟩ := Option.bind_eq_some_iff.mp h
    rw [depthAfter_add hc, Option.bind_some]
    exact ih h

namespace Balanced

variable {ts us : List Token}

theorem depthOf_eq (h : Balanced ts) (depth : Nat) : depthOf depth ts = some depth := by
  have hshift := depthOf_add h depth
  rwa [Nat.zero_add] at hshift

theorem nil : Balanced [] := rfl

theorem append (h : Balanced ts) (h' : Balanced us) : Balanced (ts ++ us) := by
  rw [Balanced, depthOf_append, h.depthOf_eq, Option.bind_some, h'.depthOf_eq]

/-- Tokens other than parentheses make no difference. -/
theorem cons {t : Token} (ht : ∀ d, depthAfter d t.lexeme = some d) (h : Balanced ts) : Balanced (t :: ts) := by
  rw [Balanced, depthOf_cons, ht, Option.bind_some, h.depthOf_eq]

theorem parens {m : Mark} (hm : m = .openParen ∨ m = .apply) (h : Balanced ts) (i j : Nat) :
    Balanced (mark m i :: ts ++ [mark .closeParen j]) := by
  have hopen : depthAfter 0 (.mark m) = some 1 := by rcases hm with rfl | rfl <;> rfl
  rw [Balanced, List.cons_append, depthOf_cons, hopen, Option.bind_some, depthOf_append, h.depthOf_eq]
  rfl

end Balanced

/-- Behind an open parenthesis, balanced tokens leave it open. -/
theorem not_balanced_of_open {ts us : List Token} {i : Nat} (h : Balanced us) :
    ¬ Balanced (ts ++ mark .openParen i :: us) := by
  intro hall
  rw [Balanced, depthOf_append] at hall
  obtain ⟨d, -, hall⟩ := Option.bind_eq_some_iff.mp hall
  rw [depthOf_cons, show depthAfter d (mark .openParen i).lexeme = some (d + 1) from rfl, Option.bind_some,
    h.depthOf_eq] at hall
  cases hall

/-- What stands in parentheses that match is one thing only. -/
theorem balanced_unique {as bs ts us : List Token} {i j : Nat} (hts : Balanced ts) (hus : Balanced us)
    (heq : as ++ mark .openParen i :: ts = bs ++ mark .openParen j :: us) : ts = us := by
  rcases List.append_eq_append_iff.mp heq with ⟨cs, -, hcs⟩ | ⟨cs, -, hcs⟩
  · cases cs with
    | nil => exact (List.cons.inj hcs).2
    | cons c cs =>
      obtain ⟨-, rfl⟩ := List.cons.inj hcs
      exact absurd hts (not_balanced_of_open hus)
  · cases cs with
    | nil => exact (List.cons.inj hcs).2.symm
    | cons c cs =>
      obtain ⟨-, rfl⟩ := List.cons.inj hcs
      exact absurd hus (not_balanced_of_open hts)

/-! ## What is true of all phrases -/

/-- A token that is no parenthesis and no arrow. -/
def IsPlain (t : Token) : Prop :=
  t.lexeme ≠ .mark .openParen ∧ t.lexeme ≠ .mark .apply ∧ t.lexeme ≠ .mark .closeParen ∧ t.lexeme ≠ .mark .arrow

theorem isPlain_mark {m : Mark} (hm : m ∉ [Mark.openParen, .apply, .closeParen, .arrow]) (i : Nat) :
    IsPlain (mark m i) := by
  simpa [IsPlain] using hm

theorem isPlain_operator (op : Parse.Operator) (i : Nat) : IsPlain (mark op.mark i) := by
  refine isPlain_mark ?_ i
  cases op with
  | binary op => cases op <;> decide
  | connective op => cases op <;> decide

theorem isPlain_sign (op : UnaryOp) (i : Nat) : IsPlain (mark op.mark i) := by
  refine isPlain_mark ?_ i
  cases op <;> decide

/-- Names hold no expressions. -/
theorem everywhere_names (P : Derivation .expr → Prop) : (ns : Derivation (.some .name)) → ns.Everywhere P
  | .first (.name _ _) => trivial
  | .more ns _ (.name _ _) => ⟨everywhere_names P ns, trivial⟩

theorem everywhere_trivial {p : Phrase} (d : Derivation p) : d.Everywhere fun _ => True := by
  induction d <;> simp_all [Derivation.Everywhere]

/-- What is kept when tokens are joined, put in parentheses, and followed by an arrow where they are the head of a
function that is as `P` asks. -/
structure Compositional (P : Derivation .expr → Prop) (Q : List Token → Prop) : Prop where
  nil : Q []
  plain : ∀ t, IsPlain t → Q [t]
  append : ∀ ts us, Q ts → Q us → Q (ts ++ us)
  parens : ∀ m i ts j, m = .openParen ∨ m = .apply → Q ts → Q (mark m i :: ts ++ [mark .closeParen j])
  head : ∀ (h : Head) i e, P (h.lambda i e) → Q h.tokens → Q (h.tokens ++ [mark .arrow i])

namespace Compositional

variable {P : Derivation .expr → Prop} {Q : List Token → Prop} {ts : List Token}

theorem cons (hQ : Compositional P Q) {t : Token} (ht : IsPlain t) (h : Q ts) : Q (t :: ts) :=
  hQ.append [t] ts (hQ.plain t ht) h

theorem mark (hQ : Compositional P Q) {m : Mark} (hm : m ∉ [Mark.openParen, .apply, .closeParen, .arrow]) (i : Nat)
    (h : Q ts) : Q (Grammar.mark m i :: ts) :=
  hQ.cons (isPlain_mark hm i) h

/-- A mark between two phrases. -/
theorem between (hQ : Compositional P Q) {m : Mark} (hm : m ∉ [Mark.openParen, .apply, .closeParen, .arrow]) (i : Nat)
    {us : List Token} (h : Q ts) (h' : Q us) : Q (ts ++ Grammar.mark m i :: us) :=
  hQ.append ts _ h (hQ.mark hm i h')

theorem lambda (hQ : Compositional P Q) (h : Head) {i : Nat} {e : Derivation .expr} (hP : P (h.lambda i e))
    (hhead : Q h.tokens) (he : Q e.yield) : Q (h.lambda i e).yield := by
  have hjoined := hQ.append _ _ (hQ.head h i e hP hhead) he
  rwa [List.append_assoc, List.singleton_append, ← yield_lambda] at hjoined

/-- It is true of the tokens of every phrase, if all expressions in the phrase are as `P` asks. -/
theorem yield (hQ : Compositional P Q) {p : Phrase} (d : Derivation p) (hd : d.Everywhere P) : Q d.yield := by
  have hname (n : Derivation .name) : Q n.yield := by
    cases n
    exact hQ.plain _ (by simp [IsPlain])
  induction d with
  | nothing | none => exact hQ.nil
  | name s i | literal c i | string s i => exact hQ.plain _ (by simp [IsPlain])
  | plain _ ih | bodyOnly _ ih | declarationsOnly _ ih | firstDeclaration _ ih | unsigned _ ih | primary _ ih
  | grouped _ ih | exactly _ ih | first _ ih => exact ih hd
  | operand _ ih => exact ih hd.2
  | lookup n _ => exact hname n
  | importing i d ihi ih =>
    cases i with
    | directive n s i => exact hQ.append _ _ (hQ.append _ _ (hname n) (hQ.plain _ (by simp [IsPlain]))) (ih hd)
  | directive n s i _ => exact hQ.append _ _ (hname n) (hQ.plain _ (by simp [IsPlain]))
  | declarationsBody _ _ ih ih' | moreDeclarations _ _ ih ih' => exact hQ.append _ _ (ih hd.1) (ih' hd.2)
  | declaration n i e _ ih | field n i e _ ih => exact hQ.between (by decide) i (hname n) (ih hd)
  | binary l op i r ihl ihr =>
    exact hQ.append _ _ (ihl hd.2.1) (hQ.cons (isPlain_operator op i) (ihr hd.2.2))
  | conditional i t j y k n iht ihy ihn =>
    exact hQ.between (by decide) k (hQ.between (by decide) j (hQ.mark (by decide) i (iht hd.2.1)) (ihy hd.2.2.1)) (ihn hd.2.2.2)
  | lambdaOne n i e _ ih => exact hQ.lambda (.one n) hd.1 (hname n) (ih hd.2)
  | lambdaParen p i e ihp ihe => exact hQ.lambda (.paren p) hd.1 (ihp hd.2.1) (ihe hd.2.2)
  | lambdaNone i j k e ih => exact hQ.lambda (.params (.none i j)) hd.1 (hQ.parens _ i [] j (.inl rfl) hQ.nil) (ih hd.2)
  | lambdaMany i n j ns k l e _ ihns ihe =>
    have hinner := hQ.between (m := .comma) (by decide) j (hname n) (ihns (everywhere_names P ns))
    exact hQ.lambda (.params (.many i n j ns k)) hd.1 (hQ.parens _ i _ k (.inl rfl) hinner) (ihe hd.2)
  | signed op i u ih => exact hQ.cons (isPlain_sign op i) (ih hd)
  | call f i args j ihf ihargs =>
    have hjoined := hQ.append _ _ (ihf hd.1) (hQ.parens _ i _ j (.inr rfl) (ihargs hd.2))
    rwa [← List.append_assoc] at hjoined
  | member p i n ihp _ => exact hQ.between (by decide) i (ihp hd) (hname n)
  | subscript p i e j ihp ihe =>
    exact hQ.append _ _ (hQ.between (by decide) i (ihp hd.1) (ihe hd.2)) (hQ.mark (by decide) j hQ.nil)
  | list i es j ih | record i es j ih =>
    exact hQ.append _ _ (hQ.mark (by decide) i (ih hd)) (hQ.mark (by decide) j hQ.nil)
  | parens i e j ih => exact hQ.parens _ i _ j (.inl rfl) (ih hd)
  | spare s i ih => exact hQ.between (by decide) i (ih hd) hQ.nil
  | more s i d ihs ihd => exact hQ.between (by decide) i (ihs hd.1) (ihd hd.2)

end Compositional

theorem depthAfter_plain {t : Token} (ht : IsPlain t) (depth : Nat) : depthAfter depth t.lexeme = some depth := by
  obtain ⟨hopen, happly, hclose, -⟩ := ht
  unfold depthAfter
  split
  · exact absurd ‹_› hopen
  · exact absurd ‹_› happly
  · exact absurd ‹_› hclose
  · rfl

/-- The parentheses of every phrase match. -/
theorem balanced_yield {p : Phrase} (d : Derivation p) : Balanced d.yield := by
  have hbalanced : Compositional (fun _ => True) Balanced := {
    nil := .nil
    plain := fun t ht => Balanced.nil.cons (depthAfter_plain ht)
    append := fun _ _ => .append
    parens := fun _ i _ j hm h => h.parens hm i j
    head := fun _ _ _ _ h => h.append (Balanced.nil.cons fun _ => rfl) }
  exact hbalanced.yield d (everywhere_trivial d)

/-! ## Heads of functions -/

/-- Names with a comma between each two. -/
inductive Listing : List Token → Prop where
  | one (n : String) (i : Nat) : Listing [⟨.name n, i⟩]
  | more {ts : List Token} (h : Listing ts) (i : Nat) (n : String) (j : Nat) :
      Listing (ts ++ [mark .comma i, ⟨.name n, j⟩])

/-- A name in any number of parentheses. -/
inductive Wrapped : List Token → Prop where
  | name (n : String) (i : Nat) : Wrapped [⟨.name n, i⟩]
  | parens {ts : List Token} (i : Nat) (h : Wrapped ts) (j : Nat) : Wrapped (mark .openParen i :: ts ++ [mark .closeParen j])

/-- What may stand in parentheses before an arrow. -/
def IsParameters (ts : List Token) : Prop := ts = [] ∨ Listing ts ∨ Wrapped ts

/-- A derivation whose meaning is a lone name derives the name in parentheses. -/
def WrappedSpec : {p : Phrase} → Derivation p → Prop
  | .expr, d | .unary, d | .suffixed, d | .primary, d | .parenthesized, d =>
    d.meaning.lookup?.isSome → Wrapped d.yield
  | _, _ => True

theorem wrapped_of_lookup {p : Phrase} (d : Derivation p) : WrappedSpec d := by
  induction d with
  | operand _ ih | unsigned _ ih | primary _ ih | grouped _ ih => exact ih
  | lookup n _ =>
    cases n
    exact fun _ => .name _ _
  | parens i e j ih => exact fun h => .parens i (ih h) j
  | binary l op i r _ _ => cases op <;> exact fun h => by cases h
  | conditional | lambdaOne | lambdaParen | lambdaNone | lambdaMany | signed | call | member | subscript | literal
  | string | list | record => exact fun h => by cases h
  | _ => trivial

theorem listing_of_names (n : Derivation .name) (j : Nat) :
    (ns : Derivation (.some .name)) → Listing (n.yield ++ mark .comma j :: ns.yield)
  | .first (.name m k) => by
    cases n
    exact (Listing.one _ _).more j m k
  | .more ns i (.name m k) => by
    have hmore := (listing_of_names n j ns).more i m k
    simpa using hmore

/-- The head of a lawful function is a name, or parameters in matching parentheses. -/
theorem Head.tokens_cases {h : Head} {k : Nat} (hslip : h.slip k = none) :
    (∃ n i, h.tokens = [⟨.name n, i⟩]) ∨ ∃ i inner j, h.tokens = mark .openParen i :: inner ++ [mark .closeParen j] ∧
      Balanced inner ∧ IsParameters inner := by
  cases h with
  | one n =>
    cases n
    exact .inl ⟨_, _, rfl⟩
  | paren p =>
    cases p with
    | parens i e j =>
      have hlone : (Derivation.parens i e j).meaning.lookup?.isSome := by
        by_contra hnone
        rw [Head.slip, if_neg hnone] at hslip
        cases hslip
      exact .inr ⟨i, e.yield, j, rfl, balanced_yield e, .inr (.inr (wrapped_of_lookup e hlone))⟩
  | params ps =>
    cases ps with
    | none i j => exact .inr ⟨i, [], j, rfl, .nil, .inl rfl⟩
    | many i n j ns k =>
      have hlisting := listing_of_names n j ns
      refine .inr ⟨i, _, k, rfl, ?_, .inr (.inl hlisting)⟩
      exact (balanced_yield n).append ((balanced_yield ns).cons fun _ => rfl)

/-! ## Arrows -/

/-- Every arrow stands right after the head of a function, which is a lone name if it is an expression in parentheses. -/
def ArrowsHeaded (ts : List Token) : Prop :=
  ∀ before k after, ts = before ++ mark .arrow k :: after →
    ∃ (front : List Token) (h : Head), before = front ++ h.tokens ∧ h.slip k = none

namespace ArrowsHeaded

variable {ts us : List Token}

theorem nil : ArrowsHeaded [] := by
  intro before k after heq
  simp at heq

theorem singleton {t : Token} (ht : t.lexeme ≠ .mark .arrow) : ArrowsHeaded [t] := by
  intro before k after heq
  cases before with
  | nil =>
    obtain ⟨rfl, -⟩ := List.cons.inj heq
    exact absurd rfl ht
  | cons b before => simp at heq

theorem append (h : ArrowsHeaded ts) (h' : ArrowsHeaded us) : ArrowsHeaded (ts ++ us) := by
  intro before k after heq
  -- an arrow of the second part has the first part before it
  have hsecond (cs : List Token) (hcs : us = cs ++ mark .arrow k :: after) (hbefore : before = ts ++ cs) :
      ∃ (front : List Token) (h : Head), before = front ++ h.tokens ∧ h.slip k = none := by
    obtain ⟨front, hd, rfl, hslip⟩ := h' cs k after hcs
    exact ⟨ts ++ front, hd, by rw [hbefore, List.append_assoc], hslip⟩
  rcases List.append_eq_append_iff.mp heq with ⟨cs, hbefore, hcs⟩ | ⟨cs, hcs, harrow⟩
  · exact hsecond cs hcs hbefore
  · cases cs with
    | nil => exact hsecond [] harrow.symm (by simpa using hcs.symm)
    | cons c cs =>
      obtain ⟨rfl, -⟩ := List.cons.inj harrow
      exact h before k cs hcs

theorem head (hd : Head) {k : Nat} (hslip : hd.slip k = none) (h : ArrowsHeaded hd.tokens) :
    ArrowsHeaded (hd.tokens ++ [mark .arrow k]) := by
  intro before j after heq
  have hhere (hj : mark .arrow j :: after = [mark .arrow k]) (hbefore : before = hd.tokens) :
      ∃ (front : List Token) (h : Head), before = front ++ h.tokens ∧ h.slip j = none := by
    obtain ⟨hj, -⟩ := List.cons.inj hj
    cases hj
    exact ⟨[], hd, hbefore, hslip⟩
  rcases List.append_eq_append_iff.mp heq with ⟨cs, hbefore, hcs⟩ | ⟨cs, hcs, harrow⟩
  · cases cs with
    | nil => exact hhere hcs.symm (by simpa using hbefore)
    | cons c cs => simp at hcs
  · cases cs with
    | nil => exact hhere harrow (by simpa using hcs.symm)
    | cons c cs =>
      obtain ⟨rfl, -⟩ := List.cons.inj harrow
      exact h before j cs hcs

end ArrowsHeaded

theorem slip_of_hasLoneName {h : Head} {i : Nat} {e : Derivation .expr} (hlone : (h.lambda i e).HasLoneName) :
    h.slip i = none := by
  cases h with
  | one n => rfl
  | paren p => exact if_pos hlone
  | params ps => rfl

/-- In a lawful derivation, every arrow stands right after the head of a function. -/
theorem headed_arrows {p : Phrase} {d : Derivation p} (hd : d.Lawful) : ArrowsHeaded d.yield := by
  have hheaded : Compositional Derivation.HasLoneName ArrowsHeaded := {
    nil := .nil
    plain := fun t ht => .singleton ht.2.2.2
    append := fun _ _ => .append
    parens := fun m i ts j hm h => by
      have hopen : ArrowsHeaded [mark m i] := .singleton (by rcases hm with rfl | rfl <;> simp)
      exact (hopen.append h).append (.singleton (by simp))
    head := fun h i e hlone htokens => .head h (slip_of_hasLoneName hlone) htokens }
  exact hheaded.yield d hd

/-! ## Lone names -/

def IsParameterToken (t : Token) : Prop :=
  (∃ n, t.lexeme = .name n) ∨ t.lexeme = .mark .openParen ∨ t.lexeme = .mark .closeParen ∨ t.lexeme = .mark .comma

theorem IsParameters.tokens {ts : List Token} (h : IsParameters ts) : ∀ t ∈ ts, IsParameterToken t := by
  rcases h with rfl | h | h
  · simp
  · induction h with
    | one n i => simp [IsParameterToken]
    | more h i n j ih =>
      intro t ht
      rcases List.mem_append.mp ht with ht | ht
      · exact ih t ht
      · simp only [List.mem_cons, List.not_mem_nil, or_false] at ht
        rcases ht with rfl | rfl <;> simp [IsParameterToken]
  · induction h with
    | name n i => simp [IsParameterToken]
    | parens i h j ih =>
      intro t ht
      simp only [List.cons_append, List.mem_cons, List.mem_append, List.not_mem_nil, or_false] at ht
      rcases ht with rfl | ht | rfl
      · simp [IsParameterToken]
      · exact ih t ht
      · simp [IsParameterToken]

/-- An expression without other tokens is a lone name. -/
def LoneSpec : {p : Phrase} → Derivation p → Prop
  | .expr, d | .unary, d | .suffixed, d | .primary, d | .parenthesized, d =>
    (∀ t ∈ d.yield, IsParameterToken t) → d.meaning.lookup?.isSome
  | _, _ => True

theorem lone_of_tokens {p : Phrase} (d : Derivation p) : LoneSpec d := by
  -- all other expressions have a token of their own
  have hown {m : Mark} {i : Nat} {ts : List Token} {goal : Prop} (hmem : mark m i ∈ ts)
      (hm : m ∉ [Mark.openParen, .closeParen, .comma]) : (∀ t ∈ ts, IsParameterToken t) → goal := by
    intro h
    have hmark := h _ hmem
    simp_all [IsParameterToken]
  induction d with
  | operand _ ih | unsigned _ ih | primary _ ih | grouped _ ih => exact ih
  | lookup n _ =>
    cases n
    exact fun _ => rfl
  | parens i e j ih => exact fun h => ih fun t ht => h t (by simp [ht])
  | binary l op i r _ _ =>
    refine hown (m := op.mark) (i := i) (by simp) ?_
    cases op with
    | binary op => cases op <;> decide
    | connective op => cases op <;> decide
  | signed op i u _ =>
    refine hown (m := op.mark) (i := i) (by simp) ?_
    cases op <;> decide
  | conditional i t j y k n => exact hown (m := .ifWord) (i := i) (by simp) (by decide)
  | lambdaOne n i e | lambdaParen n i e | lambdaNone _ _ i e | lambdaMany _ _ _ _ _ i e =>
    exact hown (m := .arrow) (i := i) (by simp) (by decide)
  | call f i args j => exact hown (m := .apply) (i := i) (by simp) (by decide)
  | member p i n => exact hown (m := .dot) (i := i) (by simp) (by decide)
  | subscript p i e j => exact hown (m := .index) (i := i) (by simp) (by decide)
  | list i es j => exact hown (m := .openBracket) (i := i) (by simp) (by decide)
  | record i fs j => exact hown (m := .openBrace) (i := i) (by simp) (by decide)
  | literal c i => exact fun h => by simpa [IsParameterToken] using h _ (List.mem_singleton_self _)
  | string s i => exact fun h => by simpa [IsParameterToken] using h _ (List.mem_singleton_self _)
  | _ => trivial

/-! ## Texts -/

variable {text : String}

/-- If the tokens of a text can be derived and the text is not read, an arrow is to blame. -/
theorem misplaced_of_derivable (hend : (Scan.scan text.toList).stop = .ended) {d : Derivation .module}
    (hd : d.yield = (Scan.scan text.toList).tokens) (hrefused : ∀ m, (Reading.ofText text).verdict ≠ .accepted m) :
    ∃ k, MisplacedArrow (Scan.scan text.toList).tokens k := by
  obtain ⟨d', hbuild⟩ := (derivable_iff_build _).mp ⟨d, hd⟩
  obtain ⟨s, slip, hrun, hfinish⟩ := build_eq_some hbuild
  cases hfeed : Parse.State.start.feedAll (Scan.scan text.toList).tokens with
  | error halt =>
    rw [← image_start] at hfeed
    obtain ⟨before, t, after, s', htokens, hrun', hstops⟩ := feedAll_error hfeed
    rcases hstops with ⟨hstep, -⟩ | ⟨u, hstep⟩
    · rw [htokens, run_append, hrun', Option.bind_some, State.run, hstep] at hrun
      cases hrun
    · have hmisplaced := (misplaced_of_run hrun' (firstSlip_of_step hstep)).append [] (t :: after)
      rw [List.nil_append, ← htokens] at hmisplaced
      exact ⟨_, hmisplaced⟩
  | ok u =>
    have hfeed' := hfeed
    rw [← image_start] at hfeed'
    obtain ⟨s', settled, hrun', -, rfl⟩ := run_of_feedAll hfeed' lawful_start
    obtain rfl : s = s' := Option.some.inj (hrun.symm.trans hrun')
    cases slip with
    | some k => exact ⟨k, misplaced_of_run hrun (firstSlip_of_finish hfinish)⟩
    | none =>
      have hagrees := finish_agrees s settled text.toList.length
      simp only [hfinish] at hagrees
      exact absurd ((verdict_eq_accepted_iff text hend _).mpr ⟨_, hfeed, hagrees⟩) (hrefused _)

/-- What stands in parentheses before an arrow. A text is read if and only if it scans to its end, its tokens can be
derived from the productions, and between a parenthesis that does not apply a function and the one that closes it right
before an arrow, there is nothing, or names with commas between them, or one name in any number of parentheses. -/
theorem accepted_iff_parameters (text : String) :
    let tokens := (Scan.scan text.toList).tokens
    (∃ m, (Reading.ofText text).verdict = .accepted m) ↔
      (Scan.scan text.toList).stop = .ended ∧ (∃ d : Derivation .module, d.yield = tokens) ∧
        ∀ before i inner j k after,
          tokens = before ++ mark .openParen i :: inner ++ mark .closeParen j :: mark .arrow k :: after →
            Balanced inner → IsParameters inner := by
  intro tokens
  constructor
  · rintro ⟨m, hm⟩
    obtain ⟨d, hyield, hlawful, -, -⟩ := derivation_of_accepted hm
    refine ⟨stop_of_accepted hm, ⟨d, hyield⟩, fun before i inner j k after htokens hinner => ?_⟩
    have harrows := headed_arrows hlawful
    rw [hyield] at harrows
    obtain ⟨front, h, hbefore, hslip⟩ := harrows (before ++ mark .openParen i :: inner ++ [mark .closeParen j]) k after
      (htokens.trans (by simp))
    rcases Head.tokens_cases hslip with ⟨n, i', hone⟩ | ⟨i', inner', j', hparens, hinner', hparameters⟩
    · rw [hone] at hbefore
      cases (List.append_inj' hbefore rfl).2
    · rw [hparens, ← List.append_assoc] at hbefore
      obtain ⟨hopen, -⟩ := List.append_inj' hbefore rfl
      rwa [balanced_unique hinner hinner' hopen]
  · rintro ⟨hend, ⟨d, hd⟩, hparameters⟩
    by_contra hrefused
    obtain ⟨k, front, p, back, htokens, hp⟩ := misplaced_of_derivable hend hd fun m hm => hrefused ⟨m, hm⟩
    cases p with
    | parens i e j =>
      have hinner := hparameters front i e.yield j k back (htokens.trans (by simp)) (balanced_yield e)
      have hlone : e.meaning.lookup?.isSome := lone_of_tokens e hinner.tokens
      rw [show e.meaning.lookup? = none from hp] at hlone
      cases hlone

/-- A name in two pairs of parentheses is taken for a lone name. -/
theorem nested_name_accepted :
    let inner := [mark .openParen 1, ⟨.name "x", 2⟩, mark .closeParen 3]
    (∃ m, (Reading.ofText "((x)) => x").verdict = .accepted m) ∧
      (Scan.scan "((x)) => x".toList).tokens =
        [] ++ mark .openParen 0 :: inner ++ mark .closeParen 4 :: mark .arrow 6 :: [⟨.name "x", 9⟩] ∧
      Balanced inner ∧ inner ≠ [] ∧ ¬ Listing inner := by
  refine ⟨⟨_, rfl⟩, rfl, rfl, by simp, fun hlisting => ?_⟩
  generalize hinner : [mark .openParen 1, ⟨.name "x", 2⟩, mark .closeParen 3] = inner at hlisting
  cases hlisting with
  | one n i => cases hinner
  | more h i n j =>
    have hlast := congrArg List.getLast? hinner
    simp at hlast

end LazyModules.Grammar
