import LazyModules.Proofs.Grammar.Reading
import LazyModules.Proofs.Scoping.Place

/-!
# Names that are looked up

Some names in a text are declared or bound and some are looked up. Each that is looked up is a token of its
own, and the expression that looks it up keeps the offset of that token.

**Results.** `lookups_subset`: what is made of a derivation looks up names that are among its tokens.
`name_of_lookup`: in a module that has been read from a text, every lookup is a name in that text, at its
offset.
-/
namespace LazyModules

/-! ## Expressions -/

namespace Expr

def lookupToken? : Expr → Option Token
  | lookup n s => some ⟨.name n, s⟩
  | _ => none

/-- The tokens of the names that are looked up in an expression that stands inside functions with the
parameters `Γ`. -/
def lookups (Γ : List (List String)) (e : Expr) : List Token :=
  (e.places Γ).filterMap fun x => x.2.lookupToken?

variable (Γ : List (List String))

@[simp] theorem lookups_literal (c : Constant) (s : Nat) : (literal c s).lookups Γ = [] := rfl

@[simp] theorem lookups_lookup (n : String) (s : Nat) : (lookup n s).lookups Γ = [⟨.name n, s⟩] := rfl

@[simp] theorem lookups_build (op : Parse.Operator) (l r : Expr) (s : Nat) :
    (op.build l r s).lookups Γ = l.lookups Γ ++ r.lookups Γ := by
  cases op <;> simp [Parse.Operator.build, lookups, places, lookupToken?]

@[simp] theorem lookups_unary (op : UnaryOp) (a : Expr) (s : Nat) :
    (unary op a s).lookups Γ = a.lookups Γ := by
  simp [lookups, places, lookupToken?]

@[simp] theorem lookups_field (l : Expr) (n : String) (s : Nat) :
    (field l n s).lookups Γ = l.lookups Γ := by
  simp [lookups, places, lookupToken?]

@[simp] theorem lookups_subscript (l i : Expr) (s : Nat) :
    (subscript l i s).lookups Γ = l.lookups Γ ++ i.lookups Γ := by
  simp [lookups, places, lookupToken?]

@[simp] theorem lookups_cond (t y n : Expr) (s : Nat) :
    (cond t y n s).lookups Γ = t.lookups Γ ++ (y.lookups Γ ++ n.lookups Γ) := by
  simp [lookups, places, lookupToken?]

@[simp] theorem lookups_lambda (ps : List String) (b : Expr) (s : Nat) :
    (lambda ps b s).lookups Γ = b.lookups (ps :: Γ) := by
  simp [lookups, places, lookupToken?]

@[simp] theorem lookups_call (f : Expr) (as : List Expr) (s : Nat) :
    (call f as s).lookups Γ = f.lookups Γ ++ as.flatMap (lookups Γ) := by
  simp only [lookups, places, placesOfList_eq_flatMap, List.filterMap_append, List.filterMap_cons,
    lookupToken?, List.filterMap_flatMap]
  rfl

@[simp] theorem lookups_list (es : List Expr) (s : Nat) :
    (list es s).lookups Γ = es.flatMap (lookups Γ) := by
  simp only [lookups, places, placesOfList_eq_flatMap, List.filterMap_cons, lookupToken?, List.filterMap_flatMap]
  rfl

@[simp] theorem lookups_record (fs : List (String × Expr)) (s : Nat) :
    (record fs s).lookups Γ = fs.flatMap fun f => f.2.lookups Γ := by
  simp [lookups, places, placesOfFields_eq_flatMap, lookupToken?, List.filterMap_flatMap]

end Expr

/-! ## Derivations -/

namespace Grammar

/-- The tokens of the names that are looked up in what the parse actions make of a phrase inside functions
with the parameters `Γ`. A name counts, since it may become a lookup. -/
def Phrase.lookups (Γ : List (List String)) : (p : Phrase) → p.Meaning → List Token
  | .module, m | .statements, m =>
    m.declarations.flatMap (fun d => d.expr.lookups Γ) ++ m.body.toList.flatMap (Expr.lookups Γ)
  | .directive, _ => []
  | .declarations, ds => ds.flatMap fun d => d.expr.lookups Γ
  | .declaration, d => d.expr.lookups Γ
  | .expr, e | .unary, e | .suffixed, e | .primary, e | .parenthesized, e => e.lookups Γ
  | .field, f => f.2.lookups Γ
  | .name, n => [⟨.name n.1, n.2⟩]
  | .items x, ms | .some x, ms => ms.flatMap (x.lookups Γ)

/-- What is made of a derivation looks up names that are among its tokens. -/
theorem lookups_subset {p : Phrase} (d : Derivation p) (Γ : List (List String)) :
    p.lookups Γ d.meaning ⊆ d.yield := by
  -- the body of a function has more parameters around it than the function
  induction d generalizing Γ with
  | plain d ih | operand u ih | unsigned p ih | primary p ih | grouped p ih | exactly s ih => exact ih Γ
  | bodyOnly e ih | declarationsOnly ds ih | firstDeclaration d ih | first d ih | lookup n ih =>
    simpa [Phrase.lookups] using ih Γ
  | nothing | none | name s i | literal c i | string s i => simp [Phrase.lookups]
  | directive n s i ih => exact List.nil_subset _
  | importing i d _ ih => exact List.subset_append_of_subset_right _ (ih Γ)
  | declaration n i e _ ih | field n i e _ ih => exact fun t ht => by simp [ih Γ ht]
  | lambdaOne n i e _ ih | lambdaParen p i e _ ih | lambdaNone i j k e ih | lambdaMany i n j ns k l e _ _ ih =>
    simp only [Phrase.lookups, Derivation.meaning, Expr.lookups_lambda]
    exact fun t ht => by simp [ih _ ht]
  | signed op i u ih =>
    simp only [Phrase.lookups, Derivation.meaning, Expr.lookups_unary]
    exact fun t ht => by simp [ih Γ ht]
  | parens i e j ih | list i es j ih | record i es j ih | spare s i ih =>
    simp only [Phrase.lookups, Derivation.meaning, Expr.lookups_list, Expr.lookups_record]
    exact fun t ht => by simp [ih Γ ht]
  | member p i n ih _ =>
    simp only [Phrase.lookups, Derivation.meaning, Expr.lookups_field]
    exact fun t ht => by simp [ih Γ ht]
  | declarationsBody a b iha ihb | moreDeclarations a b iha ihb | binary a op i b iha ihb
  | call a i b j iha ihb | subscript a i b j iha ihb | more a i b iha ihb =>
    simp only [Phrase.lookups, Derivation.meaning, Option.toList_some, List.flatMap_append,
      List.flatMap_singleton, Expr.lookups_build, Expr.lookups_call, Expr.lookups_subscript]
    exact List.append_subset.mpr
      ⟨fun t ht => by simp [iha Γ ht], fun t ht => by simp [ihb Γ ht]⟩
  | conditional i c j y k n ihc ihy ihn =>
    simp only [Phrase.lookups, Derivation.meaning, Expr.lookups_cond, List.append_subset]
    exact ⟨fun t ht => by simp [ihc Γ ht], fun t ht => by simp [ihy Γ ht],
      fun t ht => by simp [ihn Γ ht]⟩

end Grammar

/-! ## Modules -/

/-- In a module that says what is read from a text, a name that is looked up is a token of the text, at the
offset of the lookup. -/
theorem name_of_lookup {text : String} {s : ModuleSyntax} (h : (Reading.ofText text).verdict = .accepted s)
    {m : Module} (hdeclarations : m.declarations = s.declarations) (hbody : m.body = s.body)
    {Γ : List (List String)} {name : String} {start : Nat} (hplace : (Γ, .lookup name start) ∈ m.places) :
    ⟨.name name, start⟩ ∈ (Scan.scan text.toList).tokens := by
  obtain ⟨d, hyield, -, -, rfl⟩ := Grammar.derivation_of_accepted h
  have hlookup : ⟨.name name, start⟩ ∈ m.places.filterMap fun x => x.2.lookupToken? :=
    List.mem_filterMap.mpr ⟨_, hplace, rfl⟩
  rw [Module.places, hdeclarations, hbody, List.filterMap_append, List.filterMap_flatMap,
    List.filterMap_flatMap] at hlookup
  exact hyield ▸ Grammar.lookups_subset d [] hlookup

end LazyModules
