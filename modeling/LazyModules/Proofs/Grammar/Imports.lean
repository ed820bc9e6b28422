import LazyModules.Proofs.Grammar.Reading

/-!
# The import section

The imports of a module are read twice: by the productions of the grammar, and as the run of pairs of a name
and a string at the top of the tokens. The two agree, because no statement begins with such a pair: what
comes after a name at the beginning of a statement is a mark.

**Results.** `leading_yield`: the run of pairs at the top of the tokens of a derivation is what its import
productions consume, and its statements are what comes after. `import_readers_agree`: on every text that is
read, the reader of the import section alone finds the imports of the grammar.
-/
namespace LazyModules.Grammar

/-! ## How statements begin -/

/-- A token that is no name. -/
def Plain (t : Token) : Prop := ∀ n, t.lexeme ≠ .name n

/-- Tokens that begin with no name, or with a name and a mark. -/
def Solid (ts : List Token) : Prop :=
  ∃ t us, ts = t :: us ∧ (Plain t ∨ ∃ m i vs, us = mark m i :: vs)

/-- Tokens that are solid, or will be once a mark follows: they may be a name alone. -/
def Headed (ts : List Token) : Prop := Solid ts ∨ ∃ t, ts = [t]

theorem Solid.append {ts : List Token} (h : Solid ts) (us : List Token) : Solid (ts ++ us) := by
  obtain ⟨t, vs, rfl, h⟩ := h
  refine ⟨t, vs ++ us, rfl, h.imp id ?_⟩
  rintro ⟨m, i, ws, rfl⟩
  exact ⟨m, i, ws ++ us, rfl⟩

theorem Headed.append_mark {ts : List Token} (h : Headed ts) (m : Mark) (i : Nat) (us : List Token) :
    Solid (ts ++ mark m i :: us) := by
  rcases h with h | ⟨t, rfl⟩
  · exact h.append _
  · exact ⟨t, mark m i :: us, rfl, .inr ⟨m, i, us, rfl⟩⟩

theorem solid_mark (m : Mark) (i : Nat) (us : List Token) : Solid (mark m i :: us) := ⟨_, us, rfl, .inl nofun⟩

/-- What an expression or a name begins with. -/
def HeadedSpec : {x : Phrase} → Derivation x → Prop
  | .expr, d | .unary, d | .suffixed, d | .primary, d | .name, d => Headed d.yield
  | .parenthesized, d => Solid d.yield
  | _, _ => True

theorem headed {x : Phrase} (d : Derivation x) : HeadedSpec d := by
  induction d with
  | name s i | literal c i | string s i => exact .inr ⟨_, rfl⟩
  | operand _ ih | unsigned _ ih | primary _ ih | lookup _ ih => exact ih
  | grouped p ih => exact .inl ih
  | parens i e j _ => exact solid_mark _ _ _
  | conditional | lambdaNone | lambdaMany | signed | list | record => exact .inl (solid_mark _ _ _)
  | binary l op i r ih _ => exact .inl (ih.append_mark _ _ _)
  | lambdaOne n i e ih _ | member p i n ih _ => exact .inl (ih.append_mark _ _ _)
  | lambdaParen p i e ih _ => exact .inl (ih.append _)
  | call f i args j ih _ | subscript f i args j ih _ => exact .inl ((ih.append_mark _ _ _).append _)
  | _ => trivial

theorem solid_declarations : (ds : Derivation .declarations) → Solid ds.yield
  | .firstDeclaration (.declaration n _ _) => (headed n).append_mark _ _ _
  | .moreDeclarations ds _ => (solid_declarations ds).append _

/-! ## The section -/

namespace Derivation

/-- What the import productions of a module consume: names and strings without their escapes. -/
def imports : Derivation .module → List Import
  | .plain _ => []
  | .importing i d => i.meaning :: d.imports

def statements : Derivation .module → Derivation .statements
  | .plain st => st
  | .importing _ d => d.statements

theorem imports_meaning : (d : Derivation .module) → d.meaning.imports = d.imports
  | .plain st => by
    rw [imports]
    cases st <;> rfl
  | .importing i d => by
    rw [imports, ← imports_meaning d]
    rfl

end Derivation

theorem leading_of_headed {ts : List Token} (h : Headed ts) : Imports.leading ts = ([], ts) := by
  rcases h with ⟨t, us, rfl, h | ⟨m, i, vs, rfl⟩⟩ | ⟨t, rfl⟩
  · obtain ⟨x, i⟩ := t
    cases x with
    | name n => exact absurd rfl (h n)
    | literal c | string s | mark m => rfl
  · obtain ⟨x, i⟩ := t
    cases x <;> rfl
  · obtain ⟨x, i⟩ := t
    cases x <;> rfl

theorem leading_statements (st : Derivation .statements) : Imports.leading st.yield = ([], st.yield) := by
  cases st with
  | nothing => rfl
  | bodyOnly e => exact leading_of_headed (headed e)
  | declarationsOnly ds => exact leading_of_headed (.inl (solid_declarations ds))
  | declarationsBody ds e => exact leading_of_headed (.inl ((solid_declarations ds).append _))

/-- The pairs at the top of the tokens of a module are its imports. -/
theorem leading_yield : (d : Derivation .module) → Imports.leading d.yield = (d.imports, d.statements.yield)
  | .plain st => by
    rw [Derivation.imports, Derivation.statements]
    exact leading_statements st
  | .importing (.directive (.name n i) s j) d => by
    rw [Derivation.imports, Derivation.statements]
    change (⟨n, s⟩ :: (Imports.leading d.yield).1, (Imports.leading d.yield).2) = _
    rw [leading_yield d]
    rfl

/-- On every text that is read, the reader of the import section succeeds too. What it finds is what the
productions for imports consume, in their order, and what it leaves is what the statements derive. -/
theorem import_readers_agree {text : String} {m : ModuleSyntax}
    (h : (Reading.ofText text).verdict = .accepted m) :
    ∃ d : Derivation .module, d.yield = (Scan.scan text.toList).tokens ∧ d.Lawful ∧ d.Preferred ∧
      d.meaning = m ∧ Imports.read text = some d.imports ∧ m.imports = d.imports ∧
      (Imports.leading (Scan.scan text.toList).tokens).2 = d.statements.yield := by
  obtain ⟨d, hyield, hlawful, hpreferred, rfl⟩ := derivation_of_accepted h
  have hleading : Imports.leading (Scan.scan text.toList).tokens = (d.imports, d.statements.yield) := by
    rw [← hyield]
    exact leading_yield d
  refine ⟨d, hyield, hlawful, hpreferred, rfl, ?_, d.imports_meaning, ?_⟩
  · simp only [Imports.read, hleading, stop_of_accepted h]
  · rw [hleading]

theorem import_readers_agree_twoImports :
    let text := "a \"a.0\" b \"\\n\"\nc = \"c.0\" a"
    ∃ m, (Reading.ofText text).verdict = .accepted m ∧
      ∃ d : Derivation .module, d.yield = (Scan.scan text.toList).tokens ∧ d.Lawful ∧ d.Preferred ∧
        d.meaning = m ∧ Imports.read text = some d.imports ∧ m.imports = d.imports ∧
        (Imports.leading (Scan.scan text.toList).tokens).2 = d.statements.yield :=
  ⟨_, rfl, import_readers_agree rfl⟩

end LazyModules.Grammar
