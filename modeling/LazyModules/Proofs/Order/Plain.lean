import LazyModules.Proofs.Engine.Entries
import LazyModules.Proofs.Walk.Correspondence

/-!
# Texts without offsets

Two expressions say the same if they differ in their offsets only. Modules mean the same if their names stand for
what says the same, and so do their bodies.

**Results.** `Expr.like_of_plain`: expressions that say the same have the same form, and so have their parts.
`Module.alike_of_perm`: the order of declarations with different names does not matter.
-/
namespace LazyModules

mutual

/-- An expression without its offsets. -/
def Expr.plain : Expr → Expr
  | .literal c _ => .literal c 0
  | .lookup name _ => .lookup name 0
  | .binary l op r _ => .binary l.plain op r.plain 0
  | .shortcut l op r _ => .shortcut l.plain op r.plain 0
  | .unary op a _ => .unary op a.plain 0
  | .call f as _ => .call f.plain (plainAll as) 0
  | .field l name _ => .field l.plain name 0
  | .subscript l i _ => .subscript l.plain i.plain 0
  | .cond t y n _ => .cond t.plain y.plain n.plain 0
  | .lambda params body _ => .lambda params body.plain 0
  | .list es _ => .list (plainAll es) 0
  | .record fs _ => .record (plainFields fs) 0

def plainAll : List Expr → List Expr
  | [] => []
  | e :: es => e.plain :: plainAll es

def plainFields : List (String × Expr) → List (String × Expr)
  | [] => []
  | (n, e) :: fs => (n, e.plain) :: plainFields fs

end

namespace Expr

theorem forall₂_of_plainAll {es es' : List Expr} (h : plainAll es = plainAll es') :
    List.Forall₂ (fun e e' => e.plain = e'.plain) es es' := by
  induction es generalizing es' with
  | nil =>
    cases es' with
    | nil => exact .nil
    | cons e' es' => cases h
  | cons e es ih =>
    cases es' with
    | nil => cases h
    | cons e' es' =>
      obtain ⟨he, hes⟩ := List.cons.inj h
      exact .cons he (ih hes)

theorem forall₂_of_plainFields {fs fs' : List (String × Expr)} (h : plainFields fs = plainFields fs') :
    List.Forall₂ (EntryRel fun e e' => e.plain = e'.plain) fs fs' := by
  induction fs generalizing fs' with
  | nil =>
    cases fs' with
    | nil => exact .nil
    | cons f' fs' => cases h
  | cons f fs ih =>
    cases fs' with
    | nil => cases h
    | cons f' fs' =>
      obtain ⟨hf, hfs⟩ := List.cons.inj h
      exact .cons (Prod.mk.inj hf) (ih hfs)

/-- Expressions that say the same have the same form, and what is right inside them says the same. -/
theorem like_of_plain {e e' : Expr} (h : e.plain = e'.plain) :
    Eval.Like (fun p p' => p.plain = p'.plain) e e' := by
  cases e <;> cases e' <;> simp only [plain, reduceCtorEq] at h
  case literal.literal c n c' n' =>
    obtain ⟨rfl, -⟩ := Expr.literal.inj h
    exact .literal c n n'
  case lookup.lookup name n name' n' =>
    obtain ⟨rfl, -⟩ := Expr.lookup.inj h
    exact .lookup name n n'
  case binary.binary l op r n l' op' r' n' =>
    obtain ⟨hl, rfl, hr, -⟩ := Expr.binary.inj h
    exact .binary op n n' hl hr
  case shortcut.shortcut l op r n l' op' r' n' =>
    obtain ⟨hl, rfl, hr, -⟩ := Expr.shortcut.inj h
    exact .shortcut op n n' hl hr
  case unary.unary op a n op' a' n' =>
    obtain ⟨rfl, ha, -⟩ := Expr.unary.inj h
    exact .unary op n n' ha
  case call.call f as n f' as' n' =>
    obtain ⟨hf, has, -⟩ := Expr.call.inj h
    exact .call n n' hf (forall₂_of_plainAll has)
  case field.field l name n l' name' n' =>
    obtain ⟨hl, rfl, -⟩ := Expr.field.inj h
    exact .field name n n' hl
  case subscript.subscript l i n l' i' n' =>
    obtain ⟨hl, hi, -⟩ := Expr.subscript.inj h
    exact .subscript n n' hl hi
  case cond.cond t y e n t' y' e' n' =>
    obtain ⟨ht, hy, he, -⟩ := Expr.cond.inj h
    exact .cond n n' ht hy he
  case lambda.lambda params body n params' body' n' =>
    obtain ⟨rfl, -, -⟩ := Expr.lambda.inj h
    exact .lambda params body body' n n'
  case list.list es n es' n' => exact .list n n' (forall₂_of_plainAll (Expr.list.inj h).1)
  case record.record fs n fs' n' => exact .record n n' (forall₂_of_plainFields (Expr.record.inj h).1)

theorem body_of_plain {params : List String} {body body' : Expr} {n n' : Nat}
    (h : (lambda params body n).plain = (lambda params body' n').plain) : body.plain = body'.plain := by
  simp only [plain] at h
  exact (Expr.lambda.inj h).2.1

end Expr

/-! ## Modules -/

def Declaration.plain (d : Declaration) : Declaration := ⟨d.name, d.expr.plain⟩

theorem Declaration.map_name_plain (ds : List Declaration) :
    (ds.map Declaration.plain).map Declaration.name = ds.map Declaration.name := by
  rw [List.map_map]
  rfl

def Entry.plain : Entry → Entry
  | .load target => .load target
  | .expr e => .expr e.plain

/-- Modules that mean the same: their names stand for what says the same, and so do their bodies. -/
structure Module.Alike (m m' : Module) : Prop where
  entries : ∀ name, (Table.find? m.entries name).map Entry.plain = (Table.find? m'.entries name).map Entry.plain
  body : m.body.map Expr.plain = m'.body.map Expr.plain

namespace Module

theorem keys_declarations (ds : List Declaration) :
    Table.keys (ds.map fun d => (d.name, Entry.expr d.expr)) = ds.map Declaration.name := by
  rw [Table.keys, List.map_map]
  rfl

/-- A name that is declared once stands for the expression of its declaration. -/
theorem find?_entries_of_mem {m : Module} (hnodup : (m.declarations.map Declaration.name).Nodup) {d : Declaration}
    (hd : d ∈ m.declarations) : Table.find? m.entries d.name = some (.expr d.expr) := by
  refine Table.find?_insertAll_of_mem ?_ (List.mem_map.mpr ⟨d, hd, rfl⟩)
  rwa [keys_declarations]

/-- A name that is not declared stands for an import, if it stands for anything. -/
theorem find?_entries_of_not_mem {m : Module} {name : String} (h : name ∉ m.declarations.map Declaration.name) :
    Table.find? m.entries name =
      Table.find? (Table.insertAll [] (m.imports.map fun i => (i.1, .load i.2))) name :=
  Table.find?_insertAll_of_not_mem (by rwa [keys_declarations])

/-- The order of declarations with different names does not matter. -/
theorem alike_of_perm {m m' : Module} (himports : m.imports = m'.imports)
    (hbody : m.body.map Expr.plain = m'.body.map Expr.plain)
    (hnodup : (m.declarations.map Declaration.name).Nodup)
    (hperm : (m.declarations.map Declaration.plain).Perm (m'.declarations.map Declaration.plain)) : m.Alike m' := by
  have hnames : (m.declarations.map Declaration.name).Perm (m'.declarations.map Declaration.name) := by
    rw [← Declaration.map_name_plain, ← Declaration.map_name_plain m'.declarations]
    exact hperm.map _
  refine ⟨fun name => ?_, hbody⟩
  by_cases hdeclared : name ∈ m.declarations.map Declaration.name
  · obtain ⟨d, hd, rfl⟩ := List.mem_map.mp hdeclared
    obtain ⟨d', hd', hplain⟩ := List.mem_map.mp (hperm.subset (List.mem_map_of_mem hd))
    obtain ⟨hd'name, hd'expr⟩ := Declaration.mk.inj hplain
    rw [find?_entries_of_mem hnodup hd, ← hd'name, find?_entries_of_mem (hnames.nodup_iff.mp hnodup) hd']
    simp only [Option.map_some, Entry.plain, hd'expr]
  · have hdeclared' : name ∉ m'.declarations.map Declaration.name := fun h => hdeclared (hnames.symm.subset h)
    rw [find?_entries_of_not_mem hdeclared, find?_entries_of_not_mem hdeclared', himports]

end Module

end LazyModules
