import Mathlib.Data.List.Nodup
import LazyModules.Proofs.Grammar.Reading
import LazyModules.Proofs.Scan.Steps
import LazyModules.Proofs.Scoping.Place

/-!
# Offsets tell places apart

Every node keeps the offset of a token that no other node keeps, and the nodes of a text come in the order
of their tokens. So there is one place in a text for each offset.

**Results.** `offsets_sublist`: the offsets of what is made of a derivation are among those of its tokens,
in the same order. `place_unique`: in a module that has been read from a text, places with the same offset are
the same.
-/
namespace LazyModules

/-! ## Expressions -/

namespace Expr

/-- The offsets in an expression that stands inside functions with the parameters `Γ`. -/
def offsets (Γ : List (List String)) (e : Expr) : List Nat := (e.places Γ).map fun x => x.2.start

variable (Γ : List (List String))

@[simp] theorem offsets_literal (c : Constant) (s : Nat) : (literal c s).offsets Γ = [s] := rfl

@[simp] theorem offsets_lookup (n : String) (s : Nat) : (lookup n s).offsets Γ = [s] := rfl

@[simp] theorem offsets_build (op : Parse.Operator) (l r : Expr) (s : Nat) :
    (op.build l r s).offsets Γ = l.offsets Γ ++ s :: r.offsets Γ := by
  cases op <;> simp only [Parse.Operator.build, offsets, places, List.map_append, List.map_cons] <;> rfl

@[simp] theorem offsets_unary (op : UnaryOp) (a : Expr) (s : Nat) :
    (unary op a s).offsets Γ = s :: a.offsets Γ := rfl

@[simp] theorem offsets_field (l : Expr) (n : String) (s : Nat) :
    (field l n s).offsets Γ = l.offsets Γ ++ [s] := by
  simp only [offsets, places, List.map_append]
  rfl

@[simp] theorem offsets_subscript (l i : Expr) (s : Nat) :
    (subscript l i s).offsets Γ = l.offsets Γ ++ s :: i.offsets Γ := by
  simp only [offsets, places, List.map_append, List.map_cons]
  rfl

@[simp] theorem offsets_cond (t y n : Expr) (s : Nat) :
    (cond t y n s).offsets Γ = s :: (t.offsets Γ ++ (y.offsets Γ ++ n.offsets Γ)) := by
  simp only [offsets, places, List.map_append, List.map_cons]
  rfl

@[simp] theorem offsets_lambda (ps : List String) (b : Expr) (s : Nat) :
    (lambda ps b s).offsets Γ = s :: b.offsets (ps :: Γ) := rfl

@[simp] theorem offsets_call (f : Expr) (as : List Expr) (s : Nat) :
    (call f as s).offsets Γ = f.offsets Γ ++ s :: as.flatMap (offsets Γ) := by
  simp only [offsets, places, placesOfList_eq_flatMap, List.map_append, List.map_cons, List.map_flatMap]
  rfl

@[simp] theorem offsets_list (es : List Expr) (s : Nat) :
    (list es s).offsets Γ = s :: es.flatMap (offsets Γ) := by
  simp only [offsets, places, placesOfList_eq_flatMap, List.map_cons, List.map_flatMap]
  rfl

@[simp] theorem offsets_record (fs : List (String × Expr)) (s : Nat) :
    (record fs s).offsets Γ = s :: fs.flatMap fun f => f.2.offsets Γ := by
  simp only [offsets, places, placesOfFields_eq_flatMap, List.map_cons, List.map_flatMap]
  rfl

end Expr

/-! ## Derivations -/

namespace Grammar

/-- The offsets of the nodes that the parse actions make of a phrase inside functions with the parameters
`Γ`. A name counts, since it may become a node. -/
def Phrase.offsets (Γ : List (List String)) : (p : Phrase) → p.Meaning → List Nat
  | .module, m | .statements, m =>
    m.declarations.flatMap (fun d => d.expr.offsets Γ) ++ m.body.toList.flatMap (Expr.offsets Γ)
  | .directive, _ => []
  | .declarations, ds => ds.flatMap fun d => d.expr.offsets Γ
  | .declaration, d => d.expr.offsets Γ
  | .expr, e | .unary, e | .suffixed, e | .primary, e | .parenthesized, e => e.offsets Γ
  | .field, f => f.2.offsets Γ
  | .name, n => [n.2]
  | .items x, ms | .some x, ms => ms.flatMap (x.offsets Γ)

/-- The offsets of what is made of a derivation are among those of its tokens, in the same order. -/
theorem offsets_sublist {p : Phrase} (d : Derivation p) (Γ : List (List String)) :
    (p.offsets Γ d.meaning).Sublist (d.yield.map Token.start) := by
  -- the body of a function has more parameters around it than the function
  induction d generalizing Γ with
  | plain d ih | operand u ih | unsigned p ih | primary p ih | grouped p ih | exactly s ih => exact ih Γ
  | bodyOnly e ih | declarationsOnly ds ih | firstDeclaration d ih | first d ih | lookup n ih =>
    simpa [Phrase.offsets] using ih Γ
  | nothing | none | name s i | literal c i | string s i => simp [Phrase.offsets]
  | importing i d _ ih =>
    rw [Derivation.yield, List.map_append]
    exact (ih Γ).trans (List.sublist_append_right _ _)
  | directive n s i ih => exact List.nil_sublist _
  | declarationsBody ds e ihds ihe | moreDeclarations ds d ihds ihe =>
    simpa [Phrase.offsets] using (ihds Γ).append (ihe Γ)
  | declaration n i e _ ih | field n i e _ ih =>
    rw [Derivation.yield, List.map_append]
    exact ((ih Γ).cons i).trans (List.sublist_append_right _ _)
  | binary l op i r ihl ihr => simpa [Phrase.offsets] using (ihl Γ).append ((ihr Γ).cons_cons i)
  | conditional i t j y k n iht ihy ihn =>
    simpa [Phrase.offsets] using ((iht Γ).append (((ihy Γ).append ((ihn Γ).cons k)).cons j)).cons_cons i
  | lambdaOne n i e _ ih | lambdaParen p i e _ ih =>
    rw [Derivation.yield, List.map_append]
    exact ((ih _).cons_cons i).trans (List.sublist_append_right _ _)
  | lambdaNone i j k e ih => exact (((ih _).cons_cons k).cons j).cons i
  | lambdaMany i n j ns k l e _ _ ih =>
    rw [Derivation.yield, List.map_append]
    exact (((ih _).cons_cons l).cons k).trans (List.sublist_append_right _ _)
  | signed op i u ih => exact (ih Γ).cons_cons i
  | call f i args j ihf ihargs | subscript f i args j ihf ihargs =>
    have h := (ihargs Γ).trans (List.sublist_append_left _ [j])
    simpa [Phrase.offsets] using (ihf Γ).append (h.cons_cons i)
  | member p i n ihp ihn => simpa [Phrase.offsets] using (ihp Γ).append ((ihn Γ).cons i)
  | list i es j ih | record i es j ih =>
    simpa [Phrase.offsets] using ((ih Γ).trans (List.sublist_append_left _ [j])).cons_cons i
  | parens i e j ih =>
    simpa [Phrase.offsets] using ((ih Γ).trans (List.sublist_append_left _ [j])).cons i
  | spare s i ih =>
    rw [Derivation.yield, List.map_append]
    exact (ih Γ).trans (List.sublist_append_left _ _)
  | more s i d ihs ihd => simpa [Phrase.offsets] using (ihs Γ).append ((ihd Γ).cons i)

end Grammar

/-! ## Modules -/

/-- In a module that says what is read from a text, places with the same offset are the same. -/
theorem place_unique {text : String} {s : ModuleSyntax} (h : (Reading.ofText text).verdict = .accepted s)
    {m : Module} (hdeclarations : m.declarations = s.declarations) (hbody : m.body = s.body) {x y : Place}
    (hx : x ∈ m.places) (hy : y ∈ m.places) (hxy : x.2.start = y.2.start) : x = y := by
  obtain ⟨d, hyield, -, -, rfl⟩ := Grammar.derivation_of_accepted h
  have hsublist := Grammar.offsets_sublist d []
  rw [hyield] at hsublist
  have hoffsets : m.places.map (fun x => x.2.start) = Grammar.Phrase.offsets [] .module d.meaning := by
    rw [Module.places, hdeclarations, hbody, List.map_append, List.map_flatMap, List.map_flatMap]
    rfl
  have hnodup : (m.places.map fun x => x.2.start).Nodup := by
    rw [hoffsets]
    exact ((Scan.scan_increasing _).sublist hsublist).imp fun h => Nat.ne_of_lt h
  exact List.inj_on_of_nodup_map hnodup hx hy hxy

end LazyModules
