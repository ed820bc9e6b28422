import Mathlib.Data.List.Basic
import Mathlib.Data.List.Forall2
import LazyModules.Engine
import LazyModules.Proofs.Table
import LazyModules.Proofs.Walk.Correspondence

/-!
# Places in a module

A place in a module is one of its expressions together with the parameters of the functions around it. The
names that can be seen from a place are settled by the text alone: the parameters, from the innermost
function outwards, then the imports and the declarations of the module.

**Results.** `Module.place_part` and `Module.place_body`: what stands inside an expression has its place
too, which is the same as that of the expression except in the body of a function. `Scope.names_of_fits`: a
scope that fits a place has the names that can be seen from there. `Scope.lookup?_eq_none_iff`: it knows no
others.
-/
namespace LazyModules

/-- The parameters of the functions around an expression, innermost first, and the expression. -/
abbrev Place := List (List String) × Expr

namespace Expr

mutual

/-- The places in an expression, in the order of their offsets. -/
def places (Γ : List (List String)) : Expr → List Place
  | .literal c s => [(Γ, .literal c s)]
  | .lookup n s => [(Γ, .lookup n s)]
  | .binary l op r s => l.places Γ ++ (Γ, .binary l op r s) :: r.places Γ
  | .shortcut l op r s => l.places Γ ++ (Γ, .shortcut l op r s) :: r.places Γ
  | .unary op a s => (Γ, .unary op a s) :: a.places Γ
  | .call f as s => f.places Γ ++ (Γ, .call f as s) :: placesOfList Γ as
  | .field l n s => l.places Γ ++ [(Γ, .field l n s)]
  | .subscript l i s => l.places Γ ++ (Γ, .subscript l i s) :: i.places Γ
  | .cond t y n s => (Γ, .cond t y n s) :: (t.places Γ ++ (y.places Γ ++ n.places Γ))
  | .lambda ps b s => (Γ, .lambda ps b s) :: b.places (ps :: Γ)
  | .list es s => (Γ, .list es s) :: placesOfList Γ es
  | .record fs s => (Γ, .record fs s) :: placesOfFields Γ fs

def placesOfList (Γ : List (List String)) : List Expr → List Place
  | [] => []
  | e :: es => e.places Γ ++ placesOfList Γ es

def placesOfFields (Γ : List (List String)) : List (String × Expr) → List Place
  | [] => []
  | (_, e) :: fs => e.places Γ ++ placesOfFields Γ fs

end

theorem placesOfList_eq_flatMap (Γ : List (List String)) (es : List Expr) :
    placesOfList Γ es = es.flatMap (places Γ) := by
  induction es with
  | nil => rfl
  | cons e es ih => rw [placesOfList, ih, List.flatMap_cons]

theorem placesOfFields_eq_flatMap (Γ : List (List String)) (fs : List (String × Expr)) :
    placesOfFields Γ fs = fs.flatMap fun p => p.2.places Γ := by
  induction fs with
  | nil => rfl
  | cons p fs ih => rw [placesOfFields, ih, List.flatMap_cons]

theorem mem_places_self (Γ : List (List String)) (e : Expr) : (Γ, e) ∈ e.places Γ := by
  cases e <;> simp [places]

/-- What is in a part of an expression is in the expression. -/
theorem places_part {Γ : List (List String)} {e p : Expr} (h : p ∈ Eval.parts e) :
    p.places Γ ⊆ e.places Γ := by
  cases e with
  | literal | lookup | lambda => simp [Eval.parts] at h
  | binary l op r s | shortcut l op r s | subscript l i s =>
    simp only [Eval.parts, List.mem_cons, List.not_mem_nil, or_false] at h
    rcases h with rfl | rfl <;> intro x hx <;> simp [places, hx]
  | cond t y n s =>
    simp only [Eval.parts, List.mem_cons, List.not_mem_nil, or_false] at h
    rcases h with rfl | rfl | rfl <;> intro x hx <;> simp [places, hx]
  | unary op a s | field l n s =>
    simp only [Eval.parts, List.mem_singleton] at h
    subst h
    intro x hx
    simp [places, hx]
  | call f as s =>
    intro x hx
    rcases List.mem_cons.mp h with rfl | h
    · simp [places, hx]
    · have hmem : x ∈ placesOfList Γ as := by
        rw [placesOfList_eq_flatMap]
        exact List.mem_flatMap_of_mem h hx
      simp [places, hmem]
  | list es s =>
    intro x hx
    rw [places, placesOfList_eq_flatMap]
    exact List.mem_cons_of_mem _ (List.mem_flatMap_of_mem h hx)
  | record fs s =>
    intro x hx
    obtain ⟨f, hf, rfl⟩ := List.mem_map.mp h
    rw [places, placesOfFields_eq_flatMap]
    exact List.mem_cons_of_mem _ (List.mem_flatMap.mpr ⟨f, hf, hx⟩)

theorem places_body {Γ : List (List String)} {ps : List String} {b : Expr} {s : Nat} :
    b.places (ps :: Γ) ⊆ (lambda ps b s).places Γ :=
  fun _ hx => List.mem_cons_of_mem _ hx

/-- A place in an expression is the expression itself, or in a part of it, or in the body of a function. -/
theorem mem_places {Γ : List (List String)} {e : Expr} {x : Place} (h : x ∈ e.places Γ) :
    x = (Γ, e) ∨ (∃ p ∈ Eval.parts e, x ∈ p.places Γ) ∨
      ∃ ps b s, e = lambda ps b s ∧ x ∈ b.places (ps :: Γ) := by
  cases e with
  | literal c s | lookup n s =>
    simp only [places, List.mem_singleton] at h
    exact .inl h
  | binary l op r s | shortcut l op r s | unary op a s | field l n s | subscript l i s | cond t y n s =>
    simp only [places, List.mem_append, List.mem_cons, List.not_mem_nil, or_false] at h
    simp only [Eval.parts, List.mem_cons, List.not_mem_nil, or_false, exists_eq_or_imp, exists_eq_left]
    tauto
  | call f as s =>
    simp only [places, placesOfList_eq_flatMap, List.mem_append, List.mem_cons, List.mem_flatMap] at h
    simp only [Eval.parts, List.mem_cons, exists_eq_or_imp]
    rcases h with h | h | h
    · exact .inr (.inl (.inl h))
    · exact .inl h
    · exact .inr (.inl (.inr h))
  | lambda ps b s =>
    rcases List.mem_cons.mp h with h | h
    · exact .inl h
    · exact .inr (.inr ⟨ps, b, s, rfl, h⟩)
  | list es s =>
    simp only [places, placesOfList_eq_flatMap, List.mem_cons, List.mem_flatMap] at h
    exact h.imp id .inl
  | record fs s =>
    simp only [places, placesOfFields_eq_flatMap, List.mem_cons, List.mem_flatMap] at h
    rcases h with h | ⟨f, hf, hx⟩
    · exact .inl h
    · exact .inr (.inl ⟨f.2, List.mem_map_of_mem hf, hx⟩)

theorem sizeOf_part {e p : Expr} (h : p ∈ Eval.parts e) : sizeOf p < sizeOf e := by
  cases e with
  | literal | lookup | lambda => simp [Eval.parts] at h
  | binary l op r s | shortcut l op r s | unary op a s | field l n s | subscript l i s | cond t y n s =>
    simp only [Eval.parts, List.mem_cons, List.not_mem_nil, or_false] at h
    rcases h with rfl | rfl | rfl <;> simp <;> omega
  | call f as s =>
    rcases List.mem_cons.mp h with rfl | h
    · simp
      omega
    · have := List.sizeOf_lt_of_mem h
      simp
      omega
  | list es s =>
    have : sizeOf p < sizeOf es := List.sizeOf_lt_of_mem h
    simp
    omega
  | record fs s =>
    obtain ⟨f, hf, rfl⟩ := List.mem_map.mp h
    have := List.sizeOf_lt_of_mem hf
    obtain ⟨n, e⟩ := f
    simp at this ⊢
    omega

/-- What is at a place in an expression is in the expression. -/
theorem places_trans {Γ Δ : List (List String)} {e : Expr} (root : Expr) (h : (Γ, e) ∈ root.places Δ) :
    e.places Γ ⊆ root.places Δ := by
  rcases mem_places h with heq | ⟨p, hp, hmem⟩ | ⟨ps, b, s, rfl, hmem⟩
  · obtain ⟨rfl, rfl⟩ := Prod.mk.inj heq
    exact fun _ hx => hx
  · have := sizeOf_part hp
    exact fun _ hx => places_part hp (places_trans p hmem hx)
  · exact fun _ hx => places_body (places_trans b hmem hx)
termination_by sizeOf root

end Expr

namespace Module

def places (m : Module) : List Place :=
  m.declarations.flatMap (fun d => d.expr.places []) ++ m.body.toList.flatMap (Expr.places [])

/-- The names that a module imports and declares. -/
def globals (m : Module) : List String := m.imports.map Prod.fst ++ m.declarations.map Declaration.name

/-- The names that can be seen from inside functions with the parameters `Γ`. -/
def names (m : Module) (Γ : List (List String)) : List String := (Γ.flatten ++ m.globals).eraseDups

/-- A name can be seen from inside functions with the parameters `Γ`: it is one of these, or the module
imports or declares it. -/
def Sees (m : Module) (Γ : List (List String)) (name : String) : Prop :=
  (∃ ps ∈ Γ, name ∈ ps) ∨ (∃ i ∈ m.imports, i.1 = name) ∨ ∃ d ∈ m.declarations, d.name = name

variable {m : Module} {Γ : List (List String)} {e : Expr}

theorem places_subset (h : (Γ, e) ∈ m.places) : e.places Γ ⊆ m.places := by
  simp only [places, List.mem_append, List.mem_flatMap] at h
  intro x hx
  simp only [places, List.mem_append, List.mem_flatMap]
  refine h.imp ?_ ?_
  · rintro ⟨d, hd, h⟩
    exact ⟨d, hd, Expr.places_trans d.expr h hx⟩
  · rintro ⟨b, hb, h⟩
    exact ⟨b, hb, Expr.places_trans b h hx⟩

/-- A part of an expression stands inside the same functions. -/
theorem place_part (h : (Γ, e) ∈ m.places) {p : Expr} (hp : p ∈ Eval.parts e) : (Γ, p) ∈ m.places :=
  places_subset h (Expr.places_part hp (Expr.mem_places_self Γ p))

/-- The body of a function stands inside that function too. -/
theorem place_body {ps : List String} {s : Nat} (h : (Γ, .lambda ps e s) ∈ m.places) :
    (ps :: Γ, e) ∈ m.places :=
  places_subset h (Expr.places_body (Expr.mem_places_self _ e))

theorem place_declaration {d : Declaration} (h : d ∈ m.declarations) : ([], d.expr) ∈ m.places :=
  List.mem_append_left _ (List.mem_flatMap.mpr ⟨d, h, Expr.mem_places_self _ _⟩)

theorem place_of_body (h : m.body = some e) : ([], e) ∈ m.places := by
  refine List.mem_append_right _ (List.mem_flatMap.mpr ⟨e, ?_, Expr.mem_places_self _ _⟩)
  rw [h]
  exact List.mem_singleton_self e

theorem mem_names_iff {name : String} : name ∈ m.names Γ ↔ m.Sees Γ name := by
  simp only [names, globals, Sees, List.mem_eraseDups, List.mem_append, List.mem_flatten, List.mem_map]

end Module

/-! ## The names of a scope -/

namespace Scope

theorem addNames_append (seen xs ys : List String) :
    addNames seen (xs ++ ys) = addNames (addNames seen xs) ys :=
  List.foldl_append

theorem mem_addNames {seen more : List String} {n : String} :
    n ∈ addNames seen more ↔ n ∈ seen ∨ n ∈ more := by
  induction more generalizing seen with
  | nil => simp [addNames]
  | cons k more ih =>
    change n ∈ addNames (if seen.contains k then seen else seen ++ [k]) more ↔ _
    rw [ih]
    split
    · rename_i hk
      have hk : k ∈ seen := by simpa using hk
      grind
    · simp [or_assoc]

theorem addNames_of_subset {seen more : List String} (h : more ⊆ seen) : addNames seen more = seen := by
  induction more with
  | nil => rfl
  | cons k more ih =>
    have hk : seen.contains k = true := by simpa using h (List.mem_cons_self ..)
    change addNames (if seen.contains k then seen else seen ++ [k]) more = seen
    rw [if_pos hk]
    exact ih fun x hx => h (List.mem_cons_of_mem k hx)

/-- Names that have been picked out before add what they would have added. -/
theorem addNames_addNames (seen xs ys : List String) :
    addNames seen (addNames xs ys) = addNames (addNames seen xs) ys := by
  induction ys generalizing xs with
  | nil => rfl
  | cons k ys ih =>
    have hstep : addNames seen (if xs.contains k then xs else xs ++ [k]) = addNames (addNames seen xs) [k] := by
      split
      · rename_i hk
        have hk : k ∈ addNames seen xs := mem_addNames.mpr (.inr (by simpa using hk))
        exact (addNames_of_subset (by simpa using hk)).symm
      · rw [addNames_append]
    change addNames seen (addNames (if xs.contains k then xs else xs ++ [k]) ys) = _
    rw [ih, hstep, ← addNames_append]
    rfl

theorem addNames_nil (xs : List String) : addNames [] xs = xs.eraseDups := by
  suffices h : ∀ seen, addNames seen xs = seen ++ (xs.removeAll seen).eraseDups by
    rw [h []]
    simp [List.removeAll]
  induction xs with
  | nil => simp [addNames, List.removeAll]
  | cons k xs ih =>
    intro seen
    change addNames (if seen.contains k then seen else seen ++ [k]) xs = _
    rw [ih]
    by_cases hk : k ∈ seen
    · simp [hk, List.removeAll]
    · have hfilter : xs.removeAll (seen ++ [k]) = (xs.removeAll seen).filter fun x => !x == k := by
        simp only [List.removeAll, List.filter_filter]
        congr 1
        funext x
        by_cases hx : x = k <;> simp [hx]
      simp only [List.contains_eq_mem, hk, decide_false, Bool.false_eq_true, if_false, hfilter]
      simp [List.removeAll, hk, List.eraseDups_cons]

/-- The names of a scope are those of its frames, each once. -/
theorem names_eq {α : Type} (s : Scope) (fs : Frames α) :
    s.names fs = addNames [] (s.frames.flatMap fun i => Table.keys (fs.frame i)) := by
  simp only [names]
  generalize ([] : List String) = seen
  induction s.frames generalizing seen with
  | nil => rfl
  | cons i is ih => rw [List.foldl_cons, ih, List.flatMap_cons, addNames_append]

/-- A name is looked up in vain if no frame binds it. -/
theorem lookup?_eq_none_iff {α : Type} {s : Scope} {fs : Frames α} {name : String} :
    s.lookup? fs name = none ↔ name ∉ s.names fs := by
  rw [names_eq, mem_addNames, lookup?]
  induction s.frames with
  | nil => simp [lookupIn]
  | cons i is ih =>
    cases hi : Table.find? (fs.frame i) name with
    | some b =>
      have hmem : name ∈ Table.keys (fs.frame i) := List.mem_map_of_mem (Table.mem_of_find? hi)
      simp [lookupIn, hi, hmem]
    | none =>
      have hmem : name ∉ Table.keys (fs.frame i) := Table.find?_eq_none_iff.mp hi
      simpa [lookupIn, hi, hmem] using ih

/-- What a name stands for is in one of the frames. -/
theorem mem_of_lookup? {α : Type} {s : Scope} {fs : Frames α} {name : String} {b : Option α}
    (h : s.lookup? fs name = some b) : ∃ i ∈ s.frames, ∃ f : Frame α, fs[i]? = some f ∧ (name, b) ∈ f := by
  rw [lookup?] at h
  generalize s.frames = frames at h
  induction frames with
  | nil => cases h
  | cons i is ih =>
    cases hi : Table.find? (fs.frame i) name with
    | some b' =>
      simp only [lookupIn, hi] at h
      obtain rfl := Option.some.inj h
      cases hf : fs[i]? with
      | some f =>
        simp only [Frames.frame, hf, Option.getD_some] at hi
        exact ⟨i, List.mem_cons_self .., f, hf, Table.mem_of_find? hi⟩
      | none => simp [Frames.frame, hf, Table.find?] at hi
    | none =>
      simp only [lookupIn, hi] at h
      obtain ⟨k, hk, hf⟩ := ih h
      exact ⟨k, List.mem_cons_of_mem _ hk, hf⟩

end Scope

namespace Table

variable {α : Type}

theorem keys_insert (t : Table α) (k : String) (v : α) : keys (insert t k v) = Scope.addNames (keys t) [k] := by
  induction t with
  | nil => rfl
  | cons p t ih =>
    obtain ⟨n, x⟩ := p
    simp only [insert]
    by_cases h : n = k
    · simp [h, keys, Scope.addNames]
    · rw [if_neg h]
      simp only [keys, List.map_cons, Scope.addNames, List.foldl_cons, List.foldl_nil] at ih ⊢
      rw [ih]
      by_cases hk : k ∈ t.map Prod.fst <;> simp [hk, Ne.symm h]

theorem keys_insertAll (t entries : Table α) :
    keys (insertAll t entries) = Scope.addNames (keys t) (keys entries) := by
  induction entries generalizing t with
  | nil => rfl
  | cons p entries ih =>
    change keys (insertAll (insert t p.1 p.2) entries) = _
    rw [ih, keys_insert, ← Scope.addNames_append]
    rfl

end Table

/-! ## Scopes that fit -/

/-- A frame that binds certain names, each once. -/
def Frames.Binds {α : Type} (fs : Frames α) (names : List String) (i : Nat) : Prop :=
  ∃ f, fs[i]? = some f ∧ Table.keys f = names.eraseDups

/-- The frames of a scope bind the parameters `Γ`, and the last one what a module imports and declares. -/
def Scope.Fits {α : Type} (s : Scope) (fs : Frames α) (m : Module) (Γ : List (List String)) : Prop :=
  List.Forall₂ fs.Binds (Γ ++ [m.globals]) s.frames

/-- A scope that fits a place has the names that can be seen from there. -/
theorem Scope.names_of_fits {α : Type} {s : Scope} {fs : Frames α} {m : Module} {Γ : List (List String)}
    (h : s.Fits fs m Γ) : s.names fs = m.names Γ := by
  have hframes {groups : List (List String)} {is : List Nat} (h : List.Forall₂ fs.Binds groups is)
      (seen : List String) :
      addNames seen (is.flatMap fun i => Table.keys (fs.frame i)) = addNames seen groups.flatten := by
    induction h generalizing seen with
    | nil => rfl
    | @cons names i groups is hbinds _ ih =>
      obtain ⟨f, hf, hkeys⟩ := hbinds
      have hframe : Table.keys (fs.frame i) = addNames [] names := by
        rw [Frames.frame, hf, Option.getD_some, hkeys, addNames_nil]
      rw [List.flatMap_cons, List.flatten_cons, addNames_append, addNames_append, hframe, addNames_addNames, ih]
      rfl
  rw [names_eq, hframes h, addNames_nil, Module.names, List.flatten_append, List.flatten_singleton]

end LazyModules
