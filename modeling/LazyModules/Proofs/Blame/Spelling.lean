import Mathlib.Data.List.TakeWhile
import LazyModules.Proofs.Discipline.Keeps
import LazyModules.Proofs.Scoping.Offsets

/-!
# What stands at an offset

A complaint is about a term and an offset, and both come from the expression that it objects to. The term
is the spelling of a token, the offset is where that token starts, and so the text has the term there.

**Results.** `scan_spells`: every token that is a name or a mark is spelled in the text where it starts.
`points_of_derivation`: what is made of a derivation points at its tokens. `pointer_spelled`: in a module that
has been read from a text, the term that an expression points at stands in the text at its offset.
-/
namespace LazyModules

def Lexeme.spelling? : Lexeme → Option String
  | .name s => some s
  | .mark m => some m.text
  | .literal _ | .string _ => none

/-- One visible character of ASCII or more, and nothing else. -/
def Text.Visible (cs : List Char) : Prop := cs ≠ [] ∧ ∀ c ∈ cs, '!' ≤ c ∧ c ≤ '~'

theorem Mark.visible_text (m : Mark) : Text.Visible m.text.toList := by
  cases m <;> simp [Text.Visible, Mark.text]

/-! ## Tokens -/

namespace Scan

theorem visible_of_continuesWord {c : Char} (h : continuesWord c = true) : '!' ≤ c ∧ c ≤ '~' := by
  simp only [continuesWord, startsWord, isLetter, Numeral.isDigit, Bool.or_eq_true, Bool.and_eq_true,
    decide_eq_true_eq] at h
  rcases h with ((⟨hlow, hhigh⟩ | ⟨hlow, hhigh⟩) | rfl) | ⟨hlow, hhigh⟩
  · exact ⟨Char.le_trans (by decide) hlow, Char.le_trans hhigh (by decide)⟩
  · exact ⟨Char.le_trans (by decide) hlow, Char.le_trans hhigh (by decide)⟩
  · exact ⟨by decide, by decide⟩
  · exact ⟨Char.le_trans (by decide) hlow, Char.le_trans hhigh (by decide)⟩

/-- A word that is a name or a keyword says how it is spelled. -/
theorem spelling_wordLexeme {w term : String} (h : (wordLexeme w).spelling? = some term) : term = w := by
  unfold wordLexeme at h
  repeat' split at h
  all_goals simp_all [Lexeme.spelling?, Mark.text]

theorem text_of_pair? {c d : Char} {m : Mark} (h : pair? c d = some m) : m.text.toList = [c, d] := by
  unfold pair? at h
  split at h <;> cases h <;> rfl

/-- A piece that is punctuation is spelled by certain characters. -/
def Piece.Spelled (cs : List Char) : Piece → Prop
  | .mark m => m.text.toList = cs
  | .opener o => o.continuing.text.toList = cs ∧ o.opening.text.toList = cs
  | _ => False

theorem spelled_of_single? {c : Char} {p : Piece} (h : single? c = some p) : p.Spelled [c] := by
  unfold single? at h
  split at h
  all_goals cases h
  all_goals first | rfl | exact ⟨rfl, rfl⟩

/-- A piece that is a word or punctuation stands at the front. -/
theorem piece?_cases {c : Char} {cs : List Char} {p : Piece} {n : Nat} (h : piece? c cs = some (p, n)) :
    p = .blank ∨ p = .comment ∨ p = .number ∨ p = .string ∨
      p = .word ∧ startsWord c = true ∧ n = (cs.takeWhile continuesWord).length + 1 ∨
      ∃ front, p.Spelled front ∧ front <+: c :: cs := by
  cases found_of_piece? h with
  | blank => exact .inl rfl
  | comment => exact .inr (.inl rfl)
  | number => exact .inr (.inr (.inl rfl))
  | string => exact .inr (.inr (.inr (.inl rfl)))
  | word hc => exact .inr (.inr (.inr (.inr (.inl ⟨rfl, hc, rfl⟩))))
  | pair hcs hm =>
    subst hcs
    exact .inr (.inr (.inr (.inr (.inr ⟨_, text_of_pair? hm, by simp⟩))))
  | single hp => exact .inr (.inr (.inr (.inr (.inr ⟨_, spelled_of_single? hp, by simp⟩))))

/-- A lexeme is spelled by the characters that it is made of. -/
theorem spelling_lexeme? {l : Layout} {c : Char} {cs : List Char} {p : Piece} {n : Nat} {x : Lexeme}
    {term : String} (hpiece : piece? c cs = some (p, n)) (hx : lexeme? l p ((c :: cs).take n) = .ok (some x))
    (hterm : x.spelling? = some term) : term.toList <+: c :: cs ∧ Text.Visible term.toList := by
  rcases piece?_cases hpiece with rfl | rfl | rfl | rfl | ⟨rfl, hstart, rfl⟩ | ⟨front, hspelled, hfront⟩
  · cases hx
  · cases hx
  · simp only [lexeme?] at hx
    split at hx <;> cases hx
    cases hterm
  · simp only [lexeme?] at hx
    split at hx <;> cases hx
    cases hterm
  · -- the longest word at the front
    cases hx
    have hword : (c :: cs).take ((cs.takeWhile continuesWord).length + 1) = c :: cs.takeWhile continuesWord :=
      congrArg (c :: ·) (take_takeWhile continuesWord cs)
    rw [hword] at hterm
    obtain rfl := spelling_wordLexeme hterm
    rw [String.toList_ofList]
    refine ⟨(List.prefix_cons_inj c).mpr (List.takeWhile_prefix _), List.cons_ne_nil _ _, fun d hd => ?_⟩
    refine visible_of_continuesWord ?_
    rcases List.mem_cons.mp hd with rfl | hd
    · simp [continuesWord, hstart]
    · exact List.mem_takeWhile_imp hd
  · cases p with
    | mark m =>
      cases hx
      cases hterm
      exact ⟨hspelled ▸ hfront, m.visible_text⟩
    | opener o =>
      cases hx
      cases hterm
      refine ⟨?_, Mark.visible_text _⟩
      unfold Layout.opener
      split
      · exact hspelled.1 ▸ hfront
      · exact hspelled.2 ▸ hfront
    | blank | comment | number | string | word => exact hspelled.elim

/-- A token that is spelled in a text where it starts. -/
def Spells (text : List Char) (t : Token) : Prop :=
  ∀ term, t.lexeme.spelling? = some term → term.toList <+: text.drop t.start ∧ Text.Visible term.toList

/-- A piece is spelled in the text where it is taken. -/
theorem Takes.spells {text : List Char} {l : Layout} {p : Piece} {w : List Char} {x : Lexeme}
    (h : Takes text l p w (some x)) : Spells text ⟨x, l.offset⟩ := by
  intro term hterm
  obtain ⟨c, cs, rest, rfl, hrest, hpiece⟩ := h.cut
  have hx : lexeme? l p ((c :: (cs ++ rest)).take (c :: cs).length) = .ok (some x) := by
    rw [← List.cons_append, List.take_left]
    exact h.meaning
  show term.toList <+: text.drop l.offset ∧ _
  rw [hrest]
  exact spelling_lexeme? hpiece hx hterm

/-- Every token that is a name or a mark is spelled in the text where it starts. -/
theorem scan_spells (text : List Char) : ∀ t ∈ (scan text).tokens, Spells text t := by
  intro t ht
  obtain ⟨before, after, htokens⟩ := List.append_of_mem ht
  obtain ⟨l, p, w, -, hstart, htakes⟩ := passes_of_tokens htokens
  have hspells := htakes.spells
  rwa [hstart] at hspells

end Scan

/-! ## Derivations -/

/-- A term and an offset are those of a token. -/
def Token.Names (ts : List Token) (p : String × Nat) : Prop :=
  ∃ t ∈ ts, t.lexeme.spelling? = some p.1 ∧ t.start = p.2

/-- The expressions right inside an expression. -/
def Expr.inner : Expr → List Expr
  | .lambda _ b _ => [b]
  | e => Eval.parts e

/-- Whatever stands in an expression points at a token. -/
def Expr.Points (ts : List Token) (e : Expr) : Prop :=
  ∀ Γ, ∀ x ∈ e.places Γ, ∀ p, Eval.pointer? x.2 = some p → Token.Names ts p

/-- An expression points at tokens if it does so itself, and so do the expressions in it. -/
theorem Expr.Points.of_inner {ts : List Token} {e : Expr}
    (hself : ∀ p, Eval.pointer? e = some p → Token.Names ts p) (hinner : ∀ q ∈ e.inner, q.Points ts) :
    e.Points ts := by
  intro Γ x hx
  rcases mem_places hx with rfl | ⟨q, hq, hx⟩ | ⟨ps, b, s, heq, hx⟩
  · exact hself
  · refine hinner q ?_ Γ x hx
    cases e <;> first | exact hq | cases hq
  · rw [heq] at hinner
    exact hinner b (List.mem_singleton_self b) _ x hx

namespace Grammar

/-- An expression that is blamed on a mark points at the token of the mark. -/
theorem points_of_mark {ts : List Token} {e : Expr} {m : Mark} {i : Nat} (hmark : mark m i ∈ ts)
    (hself : Eval.pointer? e = some (m.text, i)) (hinner : ∀ q ∈ e.inner, q.Points ts) : e.Points ts := by
  refine .of_inner (fun p hp => ?_) hinner
  obtain rfl := Option.some.inj (hself.symm.trans hp)
  exact ⟨mark m i, hmark, rfl, rfl⟩

/-- What the parse actions make of a phrase points at tokens. -/
def Phrase.Points (ts : List Token) : (p : Phrase) → p.Meaning → Prop
  | .module, m | .statements, m => (∀ d ∈ m.declarations, d.expr.Points ts) ∧ ∀ e ∈ m.body, e.Points ts
  | .directive, _ => True
  | .declarations, ds => ∀ d ∈ ds, d.expr.Points ts
  | .declaration, d => d.expr.Points ts
  | .expr, e | .unary, e | .suffixed, e | .primary, e | .parenthesized, e => e.Points ts
  | .field, f => f.2.Points ts
  | .name, n => Token.Names ts n
  | .items x, ms | .some x, ms => ∀ m ∈ ms, x.Points ts m

theorem pointer?_build (op : Parse.Operator) (l r : Expr) (i : Nat) :
    Eval.pointer? (op.build l r i) = some (op.mark.text, i) := by
  cases op with
  | binary op => cases op <;> rfl
  | connective op => cases op <;> rfl

theorem inner_build (op : Parse.Operator) (l r : Expr) (i : Nat) : (op.build l r i).inner = [l, r] := by
  cases op <;> rfl

theorem text_mark (op : UnaryOp) : op.mark.text = op.text := by
  cases op <;> rfl

/-- What is made of a derivation points at its tokens, wherever these are. -/
theorem points_of_derivation {ts : List Token} {p : Phrase} (d : Derivation p) (hts : d.yield ⊆ ts) :
    p.Points ts d.meaning := by
  induction d with
  | plain d ih | operand u ih | unsigned p ih | primary p ih | grouped p ih | exactly s ih => exact ih hts
  | nothing => simp [Phrase.Points]
  | none => simp [Phrase.Points]
  | directive n s i ih => trivial
  | importing i d _ ih => exact ih (List.append_subset.mp hts).2
  | bodyOnly e ih => simpa [Phrase.Points] using ih hts
  | declarationsOnly ds ih => simpa [Phrase.Points] using ih hts
  | declarationsBody ds e ihds ihe =>
    obtain ⟨hds, he⟩ := List.append_subset.mp hts
    refine ⟨ihds hds, fun e' he' => ?_⟩
    obtain rfl := Option.some.inj he'
    exact ihe he
  | firstDeclaration d ih | first d ih =>
    intro m hm
    obtain rfl := List.mem_singleton.mp hm
    exact ih hts
  | moreDeclarations ds d ihds ihd =>
    obtain ⟨hds, hd⟩ := List.append_subset.mp hts
    intro d' hd'
    rcases List.mem_append.mp hd' with hd' | hd'
    · exact ihds hds d' hd'
    · obtain rfl := List.mem_singleton.mp hd'
      exact ihd hd
  | declaration n i e _ ih | field n i e _ ih =>
    simp only [Derivation.yield, List.append_subset, List.cons_subset] at hts
    exact ih hts.2.2
  | binary l op i r ihl ihr =>
    simp only [Derivation.yield, List.append_subset, List.cons_subset] at hts
    obtain ⟨hl, hmark, hr⟩ := hts
    refine points_of_mark hmark (pointer?_build op _ _ i) fun q hq => ?_
    rw [Derivation.meaning, inner_build] at hq
    rcases List.mem_pair.mp hq with rfl | rfl
    · exact ihl hl
    · exact ihr hr
  | conditional i t j y k n iht ihy ihn =>
    simp only [Derivation.yield, List.append_subset, List.cons_subset] at hts
    obtain ⟨⟨⟨hmark, ht⟩, -, hy⟩, -, hn⟩ := hts
    refine points_of_mark hmark rfl fun q hq => ?_
    simp only [Derivation.meaning, Expr.inner, Eval.parts, List.mem_cons, List.not_mem_nil, or_false] at hq
    rcases hq with rfl | rfl | rfl
    · exact iht ht
    · exact ihy hy
    · exact ihn hn
  | lambdaOne n i e _ ih | lambdaParen p i e _ ih | lambdaNone i j k e ih | lambdaMany i n j ns k l e _ _ ih =>
    refine .of_inner (fun p hp => by cases hp) fun q hq => ?_
    obtain rfl := List.mem_singleton.mp hq
    exact ih fun t ht => hts (by simp [ht])
  | signed op i u ih =>
    obtain ⟨hmark, hu⟩ := List.cons_subset.mp hts
    refine points_of_mark hmark (by rw [text_mark]; rfl) fun q hq => ?_
    obtain rfl := List.mem_singleton.mp hq
    exact ih hu
  | call f i args j ihf ihargs =>
    simp only [Derivation.yield, List.append_subset, List.cons_subset] at hts
    obtain ⟨⟨hf, hmark, hargs⟩, -⟩ := hts
    refine .of_inner (fun p hp => ?_) fun q hq => ?_
    · -- a call by name is blamed on the name, which points at its own token
      obtain rfl := Option.some.inj hp
      simp only [Eval.callTerm]
      split
      · rename_i n s heq
        exact ihf hf [] _ (Expr.mem_places_self [] _) (n, s) (by rw [heq]; rfl)
      · exact ⟨mark .apply i, hmark, rfl, rfl⟩
    · rcases List.mem_cons.mp hq with rfl | hq
      · exact ihf hf
      · exact ihargs hargs q hq
  | member p i n ihp ihn =>
    simp only [Derivation.yield, List.append_subset, List.cons_subset] at hts
    obtain ⟨hp, -, hn⟩ := hts
    refine .of_inner (fun p hpointer => ?_) fun q hq => ?_
    · obtain rfl := Option.some.inj hpointer
      exact ihn hn
    · obtain rfl := List.mem_singleton.mp hq
      exact ihp hp
  | subscript p i e j ihp ihe =>
    simp only [Derivation.yield, List.append_subset, List.cons_subset] at hts
    obtain ⟨⟨hp, hmark, he⟩, -⟩ := hts
    refine points_of_mark hmark rfl fun q hq => ?_
    rcases List.mem_pair.mp hq with rfl | rfl
    · exact ihp hp
    · exact ihe he
  | literal c i | string s i => exact .of_inner (fun p hp => by cases hp) fun q hq => by cases hq
  | lookup n ih =>
    refine .of_inner (fun p hp => ?_) fun q hq => by cases hq
    obtain rfl := Option.some.inj hp
    exact ih hts
  | list i es j ih =>
    simp only [Derivation.yield, List.append_subset, List.cons_subset] at hts
    exact .of_inner (fun p hp => by cases hp) (ih hts.1.2)
  | record i fs j ih =>
    simp only [Derivation.yield, List.append_subset, List.cons_subset] at hts
    refine .of_inner (fun p hp => by cases hp) fun q hq => ?_
    obtain ⟨f, hf, rfl⟩ := List.mem_map.mp hq
    exact ih hts.1.2 f hf
  | parens i e j ih =>
    simp only [Derivation.yield, List.append_subset, List.cons_subset] at hts
    exact ih hts.1.2
  | name s i => exact ⟨⟨.name s, i⟩, hts (List.mem_singleton_self _), rfl, rfl⟩
  | spare s i ih => exact ih (List.append_subset.mp hts).1
  | more s i d ihs ihd =>
    simp only [Derivation.yield, List.append_subset, List.cons_subset] at hts
    obtain ⟨hs, -, hd⟩ := hts
    intro m hm
    rcases List.mem_append.mp hm with hm | hm
    · exact ihs hs m hm
    · obtain rfl := List.mem_singleton.mp hm
      exact ihd hd

end Grammar

/-! ## Modules -/

/-- In a module that says what is read from a text, the term that an expression points at stands in the text
at its offset. -/
theorem pointer_spelled {text : String} {s : ModuleSyntax} (h : (Reading.ofText text).verdict = .accepted s)
    {m : Module} (hdeclarations : m.declarations = s.declarations) (hbody : m.body = s.body)
    {Γ : List (List String)} {e : Expr} (he : (Γ, e) ∈ m.places) {term : String} {near : Nat}
    (hpointer : Eval.pointer? e = some (term, near)) :
    term.toList <+: text.toList.drop near ∧ Text.Visible term.toList := by
  obtain ⟨d, hyield, -, -, rfl⟩ := Grammar.derivation_of_accepted h
  obtain ⟨hdecls, hexpr⟩ := Grammar.points_of_derivation d (List.Subset.refl _)
  have hnames : Token.Names d.yield (term, near) := by
    simp only [Module.places, hdeclarations, hbody, List.mem_append, List.mem_flatMap] at he
    rcases he with ⟨x, hx, he⟩ | ⟨x, hx, he⟩
    · exact hdecls x hx [] _ he _ hpointer
    · exact hexpr x (Option.mem_toList.mp hx) [] _ he _ hpointer
  obtain ⟨t, ht, hterm, rfl⟩ := hnames
  rw [hyield] at ht
  exact Scan.scan_spells _ t ht term hterm

end LazyModules
