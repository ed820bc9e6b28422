import LazyModules.Proofs.Engine.Layout
import LazyModules.Proofs.Table
import LazyModules.Proofs.Walk.Frames

/-!
# What the names of a module stand for

A name of a module stands for an import or for the expression of a declaration. Of several with one name the last
counts, and a declaration counts more than an import. The layout of a module has a slot for every name, made for
what the name stands for, and no two names share a cell or a function.

**Results.** `Ground.fits_layout`: so it is with every module, wherever its layout begins.
-/
namespace LazyModules

/-- What a name of a module stands for: the module at an address, or an expression. -/
inductive Entry where
  | load (target : String)
  | expr (e : Expr)

/-- The names of a module and what they stand for. -/
def Module.entries (m : Module) : Table Entry :=
  Table.insertAll (Table.insertAll [] (m.imports.map fun i => (i.1, .load i.2)))
    (m.declarations.map fun d => (d.name, .expr d.expr))

namespace Ground

variable {g : Ground} {first : Nat} {l l' : Layout} {t : Table Entry}

/-- A slot of a layout that was made for what a name stands for. The identities of the layout begin at `first`. -/
inductive Made (g : Ground) (first : Nat) (l : Layout) (name : String) : Entry → Slot → Prop where
  | load {target : String} {i : Nat} (h : l.jobs[i]? = some (.load g.address name target)) :
      Made g first l name (.load target) (.cell (g.cell + i))
  | constant (c : Constant) (n : Nat) : Made g first l name (.expr (.literal c n)) (.constant c)
  | closure (params : List String) (body : Expr) (n : Nat) {id : Nat} (hfirst : first ≤ id) (hid : id < l.nextId) :
      Made g first l name (.expr (.lambda params body n)) (.closure ⟨id, params, body, g.scope⟩)
  | cell {e : Expr} {i : Nat} (h : l.jobs[i]? = some (.expr e g.scope))
      (hliteral : ∀ c n, e ≠ .literal c n) (hlambda : ∀ params body n, e ≠ .lambda params body n) :
      Made g first l name (.expr e) (.cell (g.cell + i))

/-- The second layout goes on from the first one. -/
structure Extends (l l' : Layout) : Prop where
  jobs : ∃ more, l'.jobs = l.jobs ++ more
  nextId : l.nextId ≤ l'.nextId

theorem Extends.job (h : Extends l l') {i : Nat} {job : Job} (hi : l.jobs[i]? = some job) :
    l'.jobs[i]? = some job := by
  obtain ⟨more, hmore⟩ := h.jobs
  rw [hmore, List.getElem?_append_left (List.getElem?_eq_some_iff.mp hi).1, hi]

theorem Made.extend {name : String} {entry : Entry} {x : Slot} (h : g.Made first l name entry x)
    (hl : Extends l l') : g.Made first l' name entry x := by
  cases h with
  | load h => exact .load (hl.job h)
  | constant c n => exact .constant c n
  | closure params body n hfirst hid => exact .closure params body n hfirst (Nat.lt_of_lt_of_le hid hl.nextId)
  | cell h hliteral hlambda => exact .cell (hl.job h) hliteral hlambda

/-- A slot for an expression is made for it. -/
theorem made_delay (hfirst : first ≤ l.nextId) (name : String) (e : Expr) :
    g.Made first (g.delay l e).2 name (.expr e) (g.delay l e).1 := by
  cases e with
  | literal c n => exact .constant c n
  | lambda params body n => exact .closure params body n hfirst (Nat.lt_succ_self _)
  | _ => exact .cell (by simp [delay]) (by simp) (by simp)

theorem extends_delay (e : Expr) : Extends l (g.delay l e).2 := by
  cases e with
  | literal c n => exact ⟨⟨[], (List.append_nil _).symm⟩, Nat.le_refl _⟩
  | lambda params body n => exact ⟨⟨[], (List.append_nil _).symm⟩, Nat.le_succ _⟩
  | _ => exact ⟨⟨_, rfl⟩, Nat.le_refl _⟩

/-- Slots that have the same cell or the same function. -/
inductive Shared : Slot → Slot → Prop where
  | cell (i : Nat) : Shared (.cell i) (.cell i)
  | closure {f f' : Closure} (h : f.id = f'.id) : Shared (.closure f) (.closure f')

theorem Shared.symm {x y : Slot} (h : Shared x y) : Shared y x := by
  cases h with
  | cell i => exact .cell i
  | closure h => exact .closure h.symm

/-- A slot that is within a layout. -/
def Within (g : Ground) (l : Layout) : Slot → Prop
  | .constant _ => True
  | .closure f => f.id < l.nextId
  | .cell i => i < g.cell + l.jobs.length

theorem Within.extend {x : Slot} (h : g.Within l x) (hl : Extends l l') : g.Within l' x := by
  cases x with
  | constant c => trivial
  | closure f => exact Nat.lt_of_lt_of_le h hl.nextId
  | cell i =>
    obtain ⟨more, hmore⟩ := hl.jobs
    simp only [Within, hmore, List.length_append] at h ⊢
    omega

theorem Made.within {name : String} {entry : Entry} {x : Slot} (h : g.Made first l name entry x) : g.Within l x := by
  cases h with
  | constant c n => trivial
  | closure params body n hfirst hid => exact hid
  | load h =>
    have hi := (List.getElem?_eq_some_iff.mp h).1
    simp only [Within]
    omega
  | cell h _ _ =>
    have hi := (List.getElem?_eq_some_iff.mp h).1
    simp only [Within]
    omega

/-- A layout has slots that were made for what names stand for, apart from names that are pending, and names
do not share slots. -/
structure Fits (g : Ground) (first : Nat) (pending : String → Prop) (l : Layout) (t : Table Entry) : Prop where
  nextId : first ≤ l.nextId
  made : ∀ name, ¬ pending name →
    Option.Rel (Option.Rel fun x entry => g.Made first l name entry x) (Table.find? l.frame name)
      ((Table.find? t name).map some)
  within : ∀ {name x}, Table.find? l.frame name = some (some x) → g.Within l x
  distinct : ∀ {name name' x y}, Table.find? l.frame name = some (some x) →
    Table.find? l.frame name' = some (some y) → Shared x y → name = name'

namespace Fits

variable {pending : String → Prop}

/-- Each cell has one name. -/
theorem cell_eq_iff (h : g.Fits first pending l t) {name name' : String} {i j : Nat}
    (hi : Table.find? l.frame name = some (some (.cell i)))
    (hj : Table.find? l.frame name' = some (some (.cell j))) : i = j ↔ name = name' := by
  constructor
  · rintro rfl
    exact h.distinct hi hj (.cell i)
  · rintro rfl
    exact Slot.cell.inj (Option.some.inj (Option.some.inj (hi.symm.trans hj)))

/-- Each function has one name. -/
theorem ident_eq_iff (h : g.Fits first pending l t) {name name' : String} {f f' : Closure}
    (hf : Table.find? l.frame name = some (some (.closure f)))
    (hf' : Table.find? l.frame name' = some (some (.closure f'))) : f.id = f'.id ↔ name = name' := by
  constructor
  · intro hid
    exact h.distinct hf hf' (.closure hid)
  · rintro rfl
    rw [Slot.closure.inj (Option.some.inj (Option.some.inj (hf.symm.trans hf')))]

theorem nil : g.Fits first (fun _ => False) ⟨[], [], first⟩ [] where
  nextId := Nat.le_refl _
  made _ _ := .none
  within h := by cases h
  distinct h := by cases h

/-- A name without a value yet. -/
theorem declare (h : g.Fits first pending l t) (name : String) :
    g.Fits first (fun n => pending n ∨ n = name) { l with frame := Table.insert l.frame name none } t := by
  have hold {n : String} {x : Slot} (hn : Table.find? (Table.insert l.frame name none) n = some (some x)) :
      Table.find? l.frame n = some (some x) := by
    rw [Table.find?_insert] at hn
    split at hn
    · cases hn
    · exact hn
  refine ⟨h.nextId, fun n hn => ?_, fun hx => h.within (hold hx), fun hx hy => h.distinct (hold hx) (hold hy)⟩
  rw [not_or] at hn
  rw [Table.find?_insert, if_neg hn.2]
  have hmade := h.made n hn.1
  generalize Table.find? l.frame n = b, (Table.find? t n).map some = b' at hmade
  cases hmade with
  | none => exact .none
  | some hbb =>
    cases hbb with
    | none => exact .some .none
    | some hmade => exact .some (.some (hmade.extend ⟨⟨[], (List.append_nil _).symm⟩, Nat.le_refl _⟩))

/-- A name gets a slot that was made for what it stands for and that no other name has. -/
theorem insert (h : g.Fits first pending l t) (hl : Extends l l') {name : String} {entry : Entry} {x : Slot}
    (hx : g.Made first l' name entry x) (hnew : ∀ y, g.Within l y → ¬ Shared x y) :
    g.Fits first (fun n => pending n ∧ n ≠ name) { l' with frame := Table.insert l.frame name (some x) }
      (Table.insert t name entry) := by
  have hsame {n : String} {entry : Entry} {y : Slot} (hy : g.Made first l' n entry y) (frame : Frame Slot) :
      g.Made first { l' with frame := frame } n entry y :=
    hy.extend ⟨⟨[], (List.append_nil _).symm⟩, Nat.le_refl _⟩
  refine ⟨Nat.le_trans h.nextId hl.nextId, fun n hn => ?_, fun {n y} hy => ?_, fun {n n' y y'} hy hy' hshared => ?_⟩
  · rw [Table.find?_insert, Table.find?_insert]
    by_cases hname : n = name
    · subst hname
      simp only [if_true, Option.map_some]
      exact .some (.some (hsame hx _))
    · rw [if_neg hname, if_neg hname]
      have hmade := h.made n fun hpending => hn ⟨hpending, hname⟩
      generalize Table.find? l.frame n = b, (Table.find? t n).map some = b' at hmade
      cases hmade with
      | none => exact .none
      | some hbb =>
        cases hbb with
        | none => exact .some .none
        | some hmade => exact .some (.some (hsame (hmade.extend hl) _))
  · rw [Table.find?_insert] at hy
    split at hy
    · obtain rfl := Option.some.inj (Option.some.inj hy)
      exact hx.within
    · exact (h.within hy).extend ⟨hl.jobs, hl.nextId⟩
  · rw [Table.find?_insert] at hy hy'
    split at hy <;> split at hy'
    · rename_i hn hn'
      rw [hn, hn']
    · obtain rfl := Option.some.inj (Option.some.inj hy)
      exact absurd hshared (hnew _ (h.within hy'))
    · obtain rfl := Option.some.inj (Option.some.inj hy')
      exact absurd hshared.symm (hnew _ (h.within hy))
    · exact h.distinct hy hy' hshared

theorem bindImport (h : g.Fits first (fun _ => False) l t) (i : String × String) :
    g.Fits first (fun _ => False) (g.bindImport l i) (Table.insert t i.1 (.load i.2)) := by
  have hnew (y : Slot) (hy : g.Within l y) : ¬ Shared (.cell (g.cell + l.jobs.length)) y := by
    rintro ⟨⟩
    exact absurd hy (Nat.lt_irrefl _)
  have hl : Extends l { l with jobs := l.jobs ++ [.load g.address i.1 i.2] } := ⟨⟨_, rfl⟩, Nat.le_refl _⟩
  have hmade : g.Made first { l with jobs := l.jobs ++ [.load g.address i.1 i.2] } i.1 (.load i.2)
      (.cell (g.cell + l.jobs.length)) := .load (by simp)
  have hinsert := h.insert hl hmade hnew
  exact { hinsert with made := fun n _ => hinsert.made n fun hn => hn.1 }

theorem assign (h : g.Fits first pending l t) (d : Declaration) :
    g.Fits first (fun n => pending n ∧ n ≠ d.name) (g.assign l d) (Table.insert t d.name (.expr d.expr)) := by
  have hnew (y : Slot) (hy : g.Within l y) : ¬ Shared (g.delay l d.expr).1 y := by
    cases d.expr <;> rintro ⟨⟩ <;> simp_all [Within]
  have hframe : (g.delay l d.expr).2.frame = l.frame := by
    cases d.expr <;> rfl
  have hinsert := h.insert (extends_delay d.expr) (made_delay h.nextId d.name d.expr) hnew
  rw [Ground.assign, hframe]
  exact hinsert

theorem bindImports (h : g.Fits first (fun _ => False) l t) (is : List (String × String)) :
    g.Fits first (fun _ => False) (is.foldl g.bindImport l)
      (Table.insertAll t (is.map fun i => (i.1, .load i.2))) := by
  induction is generalizing l t with
  | nil => exact h
  | cons i is ih => exact ih (h.bindImport i)

theorem declareAll (h : g.Fits first pending l t) (ds : List Declaration) :
    g.Fits first (fun n => pending n ∨ n ∈ ds.map Declaration.name)
      (ds.foldl (fun l d => { l with frame := Table.insert l.frame d.name none }) l) t := by
  induction ds generalizing pending l with
  | nil => exact { h with made := fun n hn => h.made n fun hpending => hn (.inl hpending) }
  | cons d ds ih =>
    have hrest := ih (h.declare d.name)
    refine { hrest with made := fun n hn => hrest.made n fun hpending => hn ?_ }
    rw [List.map_cons, List.mem_cons]
    tauto

theorem assignAll (h : g.Fits first pending l t) (ds : List Declaration) :
    g.Fits first (fun n => pending n ∧ n ∉ ds.map Declaration.name) (ds.foldl g.assign l)
      (Table.insertAll t (ds.map fun d => (d.name, .expr d.expr))) := by
  induction ds generalizing pending l t with
  | nil => exact { h with made := fun n hn => h.made n fun hpending => hn ⟨hpending, List.not_mem_nil⟩ }
  | cons d ds ih =>
    have hrest := ih (h.assign d)
    refine { hrest with made := fun n hn => hrest.made n fun hpending => hn ?_ }
    rw [List.map_cons, List.mem_cons]
    tauto

end Fits

/-- The layout of a module has slots that were made for what its names stand for, and names do not share them. -/
theorem fits_layout (g : Ground) (m : Module) (first : Nat) :
    g.Fits first (fun _ => False) (g.layout m first) m.entries := by
  have hnil : g.Fits first (fun _ => False) ⟨[], [], first⟩ [] := .nil
  have hnames := (hnil.bindImports m.imports).declareAll m.declarations
  have hall := hnames.assignAll m.declarations
  exact { hall with made := fun n hn => hall.made n fun hpending => hpending.2 (hpending.1.resolve_left hn) }

end Ground

end LazyModules
