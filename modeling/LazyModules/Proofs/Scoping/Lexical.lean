import LazyModules.Proofs.Engine.Requests
import LazyModules.Proofs.Scoping.Offsets

/-!
# Lexical scoping

Whatever code a run carries about, in cells, frames, functions and values, it carries together with a scope
that fits the place of that code in the text of its module. Evaluation looks at nothing else: a step goes
from an expression to its parts, in the same scope, or from a function to its body, in the scope that the
function was born in and a frame more. So the scope fits again, whoever calls the function and from
whichever module.

An error that has an offset points at such a place too, since it is raised where an expression is visited.

**Results.** `lexical`: the conduct, with `moduleScope_keeps` for the scope of a module. `visited_lexically`:
in every run, the scope of a visit is settled by the place that is visited.
-/
namespace LazyModules.Engine

open Eval

/-! ## What is known of a state -/

/-- An expression that stands at a place in a module that has been read, and a scope that fits there. -/
def Placed (r : Store Session) (e : Expr) (s : Scope) : Prop :=
  ∃ m Γ, Table.find? r.outer.modules s.address = some m ∧ (Γ, e) ∈ m.places ∧ s.Fits r.frames m Γ

/-- A module that says what the text at its address says. -/
def SaysText (c : Config) (loaded : Table Document) (m : Module) : Prop :=
  ∃ points said, Table.find? loaded m.address = some (.text points) ∧
    (c.read (Text.legible points)).verdict = .accepted said ∧ m.declarations = said.declarations ∧
    m.body = said.body ∧ Resolves m.address ((Imports.read (Text.legible points)).getD []) m.imports

/-- An error whose complaint, if it is one, is about a term at a place in the module that it remembers. -/
def Pointed (modules : Table Module) (e : SemanticError) : Prop :=
  ∀ complaint, e.cause = .complaint complaint → ∃ address m Γ x near, e.address = some address ∧
    Table.find? modules address = some m ∧ (Γ, x) ∈ m.places ∧ pointer? x = some (complaint.term, near) ∧
    complaint.near = some (near : Int)

/-- An error that was reported against an address: it points at its place, and the address is that of the
module that it remembers, if it remembers one. -/
def Blamed (modules : Table Module) (e : SemanticError) (address : String) : Prop :=
  Pointed modules e ∧ ∃ other, address = culprit e other

/-- All code is carried with a scope that fits, every module says what its text says, and every error that
was reported points at its place. -/
structure Lexical (c : Config) (h : EngineState) : Prop where
  jobs : ∀ (i : Nat) job, Heap.job? h i = some job → job.Carries (Placed h.rest)
  results : ∀ (i : Nat) job v, h.cells[i]? = some (.done job v) → v.Carries (Placed h.rest)
  frames : ∀ (i : Nat) f, h.rest.frames[i]? = some f → ∀ p ∈ f, ∀ x, p.2 = some x → x.Carries (Placed h.rest)
  values : ∀ a v, Table.find? h.rest.outer.values a = some v → v.Carries (Placed h.rest)
  modules : ∀ a m, Table.find? h.rest.outer.modules a = some m →
    m.address = a ∧ SaysText c h.rest.outer.library.cache.loaded m
  blamed : ∀ e a, .blamed e a ∈ h.rest.outer.journal → Blamed h.rest.outer.modules e a

/-- The second store has what places depend on: the modules, their texts and the names of the frames. -/
structure Extends (r r' : Store Session) : Prop where
  modules : Table.Gains r.outer.modules r'.outer.modules
  loaded : Table.Gains r.outer.library.cache.loaded r'.outer.library.cache.loaded
  frames : ∀ (i : Nat) f, r.frames[i]? = some f →
    ∃ f', r'.frames[i]? = some f' ∧ Table.keys f' = Table.keys f

namespace Extends

variable {r r' r'' : Store Session}

/-- The same frames, with more modules and texts. -/
theorem of_gains (hmodules : Table.Gains r.outer.modules r'.outer.modules)
    (hloaded : Table.Gains r.outer.library.cache.loaded r'.outer.library.cache.loaded)
    (hframes : r'.frames = r.frames) : Extends r r' :=
  ⟨hmodules, hloaded, fun _ f hf => ⟨f, hframes ▸ hf, rfl⟩⟩

theorem refl (r : Store Session) : Extends r r := .of_gains (.refl _) (.refl _) rfl

theorem trans (hle : Extends r r') (hle' : Extends r' r'') : Extends r r'' := by
  refine ⟨hle.modules.trans hle'.modules, hle.loaded.trans hle'.loaded, fun i f hf => ?_⟩
  obtain ⟨f', hf', hkeys⟩ := hle.frames i f hf
  obtain ⟨f'', hf'', hkeys'⟩ := hle'.frames i f' hf'
  exact ⟨f'', hf'', hkeys'.trans hkeys⟩

theorem pushFrame (h : EngineState) (f : Frame Slot) : Extends h.rest (Heap.pushFrame h f).rest :=
  ⟨.refl _, .refl _, fun _ g hg => ⟨g, (Grows.pushFrame h f).frame hg, rfl⟩⟩

theorem binds (hle : Extends r r') {names : List String} {i : Nat} (hbinds : r.frames.Binds names i) :
    r'.frames.Binds names i := by
  obtain ⟨f, hf, hkeys⟩ := hbinds
  obtain ⟨f', hf', hkeys'⟩ := hle.frames i f hf
  exact ⟨f', hf', hkeys'.trans hkeys⟩

theorem placed (hle : Extends r r') (e : Expr) (s : Scope) (hplaced : Placed r e s) : Placed r' e s := by
  obtain ⟨m, Γ, hm, hmem, hfits⟩ := hplaced
  exact ⟨m, Γ, hle.modules _ _ hm, hmem, hfits.imp fun _ _ => hle.binds⟩

end Extends

theorem SaysText.mono {c : Config} {loaded loaded' : Table Document} {m : Module} (hm : SaysText c loaded m)
    (hle : Table.Gains loaded loaded') : SaysText c loaded' m := by
  obtain ⟨points, said, htext, hsaid⟩ := hm
  exact ⟨points, said, hle _ _ htext, hsaid⟩

theorem Pointed.mono {modules modules' : Table Module} {e : SemanticError} (he : Pointed modules e)
    (hle : Table.Gains modules modules') : Pointed modules' e := by
  intro complaint hcause
  obtain ⟨address, m, Γ, x, near, haddress, hm, hplace⟩ := he complaint hcause
  exact ⟨address, m, Γ, x, near, haddress, hle _ _ hm, hplace⟩

theorem Pointed.of_ne {modules : Table Module} {e : SemanticError}
    (he : ∀ complaint, e.cause ≠ .complaint complaint) : Pointed modules e :=
  fun complaint hcause => absurd hcause (he complaint)

namespace Lexical

variable {c : Config} {h h' : EngineState}

/-- Nothing is lost where a state goes on, so only what is new has to be looked at. -/
theorem extend (hinv : Lexical c h) (hle : Extends h.rest h'.rest)
    (hjobs : ∀ (i : Nat) job, Heap.job? h' i = some job →
      Heap.job? h i = some job ∨ job.Carries (Placed h'.rest))
    (hresults : ∀ (i : Nat) job v, h'.cells[i]? = some (.done job v) →
      h.cells[i]? = some (.done job v) ∨ v.Carries (Placed h'.rest))
    (hframes : ∀ (i : Nat) f, h'.rest.frames[i]? = some f → ∀ p ∈ f, ∀ x, p.2 = some x →
      (∃ f', h.rest.frames[i]? = some f' ∧ p ∈ f') ∨ x.Carries (Placed h'.rest))
    (hvalues : ∀ a v, Table.find? h'.rest.outer.values a = some v →
      Table.find? h.rest.outer.values a = some v ∨ v.Carries (Placed h'.rest))
    (hmodules : ∀ a m, Table.find? h'.rest.outer.modules a = some m →
      Table.find? h.rest.outer.modules a = some m ∨
        m.address = a ∧ SaysText c h'.rest.outer.library.cache.loaded m)
    (hblamed : ∀ e a, .blamed e a ∈ h'.rest.outer.journal →
      .blamed e a ∈ h.rest.outer.journal ∨ Blamed h'.rest.outer.modules e a) : Lexical c h' where
  jobs i job hi := (hjobs i job hi).elim (fun hi => (hinv.jobs i job hi).imp hle.placed) id
  results i job v hi := (hresults i job v hi).elim (fun hi => (hinv.results i job v hi).imp hle.placed) id
  frames i f hf p hp x hx := (hframes i f hf p hp x hx).elim
    (fun ⟨f', hf', hp'⟩ => (hinv.frames i f' hf' p hp' x hx).imp hle.placed) id
  values a v hv := (hvalues a v hv).elim (fun hv => (hinv.values a v hv).imp hle.placed) id
  modules a m hm := (hmodules a m hm).elim
    (fun hm => ⟨(hinv.modules a m hm).1, (hinv.modules a m hm).2.mono hle.loaded⟩) id
  blamed e a he := (hblamed e a he).elim
    (fun he => (hinv.blamed e a he).imp_left fun hpointed => hpointed.mono hle.modules) id

/-- Another session. -/
theorem setOuter (hinv : Lexical c h) {s : Session} (hle : Extends h.rest { h.rest with outer := s })
    (hvalues : ∀ a v, Table.find? s.values a = some v →
      Table.find? h.rest.outer.values a = some v ∨ v.Carries (Placed { h.rest with outer := s }))
    (hmodules : ∀ a m, Table.find? s.modules a = some m →
      Table.find? h.rest.outer.modules a = some m ∨ m.address = a ∧ SaysText c s.library.cache.loaded m)
    (hblamed : ∀ e a, .blamed e a ∈ s.journal →
      .blamed e a ∈ h.rest.outer.journal ∨ Blamed s.modules e a) : Lexical c (Heap.setOuter h s) :=
  hinv.extend hle (fun _ _ => .inl) (fun _ _ _ => .inl) (fun _ f hf _ hp _ _ => .inl ⟨f, hf, hp⟩)
    hvalues hmodules hblamed

/-- Other frames. -/
theorem setFrames (hinv : Lexical c h) {fs : Frames Slot}
    (hle : Extends h.rest { h.rest with frames := fs })
    (hframes : ∀ (i : Nat) f, fs[i]? = some f → ∀ p ∈ f, ∀ x, p.2 = some x →
      (∃ f', h.rest.frames[i]? = some f' ∧ p ∈ f') ∨
        x.Carries (Placed { h.rest with frames := fs })) :
    Lexical c { h with rest := { h.rest with frames := fs } } :=
  hinv.extend hle (fun _ _ => .inl) (fun _ _ _ => .inl) hframes (fun _ _ => .inl) (fun _ _ => .inl)
    (fun _ _ => .inl)

theorem pushCell (hinv : Lexical c h) {job : Job} (hjob : job.Carries (Placed h.rest)) :
    Lexical c (Heap.pushCell h job) := by
  refine hinv.extend (.refl _) (fun i job' hi => ?_)
    (fun i job' v hi => ?_) (fun _ f hf _ hp _ _ => .inl ⟨f, hf, hp⟩) (fun _ _ => .inl) (fun _ _ => .inl)
    (fun _ _ => .inl)
  · obtain ⟨cell, hcell, rfl⟩ := Heap.job?_eq_some_iff.mp hi
    rcases Heap.getElem?_pushCell hcell with hcell | rfl
    · exact .inl (Heap.job?_eq_some_iff.mpr ⟨cell, hcell, rfl⟩)
    · exact .inr hjob
  · exact (Heap.getElem?_pushCell hi).imp id nofun

/-- A cell in another state, with the same job. -/
theorem setCell (hinv : Lexical c h) {i : Nat} {cell : Cell Job Value}
    (hjob : cell.job.Carries (Placed h.rest))
    (hresult : ∀ job v, cell = .done job v → v.Carries (Placed h.rest)) : Lexical c (h.setCell i cell) := by
  refine hinv.extend (.refl _) (fun k job hk => ?_)
    (fun k job v hk => ?_) (fun _ f hf _ hp _ _ => .inl ⟨f, hf, hp⟩) (fun _ _ => .inl) (fun _ _ => .inl)
    (fun _ _ => .inl)
  · obtain ⟨cell', hcell', rfl⟩ := Heap.job?_eq_some_iff.mp hk
    rcases Heap.getElem?_setCell hcell' with ⟨-, hcell'⟩ | ⟨-, rfl⟩
    · exact .inl (Heap.job?_eq_some_iff.mpr ⟨cell', hcell', rfl⟩)
    · exact .inr hjob
  · rcases Heap.getElem?_setCell hk with ⟨-, hk⟩ | ⟨-, hcell⟩
    · exact .inl hk
    · exact .inr (hresult job v hcell.symm)

end Lexical

/-- How a store may go on: what places depend on is kept, the same modules are under evaluation, and an
error points at its place. -/
structure Goes (r : Store Session) (o : Outcome Trouble Unit) (r' : Store Session) : Prop extends
    Extends r r' where
  evaluating : r'.outer.evaluating = r.outer.evaluating
  pointed : ∀ e, o = .error (.semantic e) → Pointed r'.outer.modules e

namespace Goes

variable {r r' r'' : Store Session} {o : Outcome Trouble Unit}

/-- A step that goes well. -/
theorem ok (hle : Extends r r') (hevaluating : r'.outer.evaluating = r.outer.evaluating) :
    Goes r (.ok ()) r' :=
  ⟨hle, hevaluating, nofun⟩

/-- A step that raises no error. -/
theorem of_extends (hle : Extends r r') (hevaluating : r'.outer.evaluating = r.outer.evaluating)
    (ho : ∀ e, o ≠ .error (.semantic e)) : Goes r o r' :=
  ⟨hle, hevaluating, fun e he => absurd he (ho e)⟩

theorem refl (r : Store Session) (ho : ∀ e, o ≠ .error (.semantic e)) : Goes r o r :=
  .of_extends (.refl r) rfl ho

/-- An error that is no complaint. -/
theorem of_ne {e : SemanticError} (he : ∀ complaint, e.cause ≠ .complaint complaint) :
    Goes r (.error (.semantic e)) r := by
  refine ⟨.refl _, rfl, fun e' he' => ?_⟩
  cases he'
  exact .of_ne he

theorem trans (hle : Goes r (.ok ()) r') (hle' : Goes r' o r'') : Goes r o r'' :=
  ⟨hle.toExtends.trans hle'.toExtends, hle'.evaluating.trans hle.evaluating, hle'.pointed⟩

end Goes

/-! ## Evaluation -/

variable {c : Config}

/-- Code is visited where it stands. -/
def lexicalOutlook (c : Config) : Outlook Session :=
  { inv := Lexical c, leads := fun h o h' => Goes h.rest o h'.rest, visit := fun h => Placed h.rest }

/-- The frame of a call binds the parameters. -/
theorem keys_callFrame {params : List String} {xs : List Slot} (hlength : xs.length = params.length) :
    Table.keys (callFrame (params.zip xs)) = params.eraseDups := by
  have hkeys : Table.keys ((params.zip xs).map fun p => (p.1, some p.2)) = params := by
    rw [Table.keys, List.map_map]
    exact List.map_fst_zip (Nat.le_of_eq hlength.symm)
  rw [callFrame, Table.keys_insertAll, hkeys, ← Scope.addNames_nil]
  rfl

theorem mem_insertAll {α : Type} {t entries : Table α} {p : String × α} (hp : p ∈ Table.insertAll t entries) :
    p ∈ t ∨ p ∈ entries := by
  induction entries generalizing t with
  | nil => exact .inl hp
  | cons q entries ih =>
    rcases ih (t := Table.insert t q.1 q.2) hp with hp | hp
    · exact (Table.mem_insert hp).imp id fun hp => List.mem_cons.mpr (.inl hp)
    · exact .inr (List.mem_cons_of_mem _ hp)

theorem enter_ends {h : EngineState} {params : List String} {body : Expr} {start : Nat} {s : Scope}
    {xs : List Slot} (hinv : Lexical c h) (hplaced : Placed h.rest (.lambda params body start) s)
    (hxs : ∀ x ∈ xs, x.Carries (Placed h.rest)) (hlength : xs.length = params.length) :
    (lexicalOutlook c).Ends h (fun h' s' => Placed h'.rest body s') (enter s (params.zip xs) h) := by
  rw [enter_eq]
  have hle := Extends.pushFrame h (callFrame (params.zip xs))
  refine ⟨hinv.setFrames hle fun i f hf p hp x hx => ?_, .ok hle rfl, fun s' hs' => ?_⟩
  · rcases Heap.getElem?_pushFrame hf with hf | rfl
    · exact .inl ⟨f, hf, hp⟩
    · rcases mem_insertAll hp with hp | hp
      · cases hp
      · obtain ⟨q, hq, rfl⟩ := List.mem_map.mp hp
        obtain rfl := Option.some.inj hx
        exact .inr ((hxs _ (List.of_mem_zip hq).2).imp hle.placed)
  · obtain rfl := Outcome.ok.inj hs'
    obtain ⟨m, Γ, hm, hmem, hfits⟩ := hplaced
    refine ⟨m, params :: Γ, hm, Module.place_body hmem, .cons ?_ (hfits.imp fun _ _ => hle.binds)⟩
    exact ⟨_, Heap.getElem?_pushFrame_size h _, keys_callFrame hlength⟩

/-- A cell that runs. What it carried before, it carries afterwards. -/
theorem run_ends {h : EngineState} {i : Nat} {job : Job} (hinv : Lexical c h)
    (hi : h.cells[i]? = some (.waiting job)) :
    Lexical c (h.setCell i (.busy job)) ∧ job.Carries (Placed h.rest) ∧
      ∀ r, (lexicalOutlook c).Ends (h.setCell i (.busy job)) (lexicalOutlook c).Value r →
        (lexicalOutlook c).Ends h (lexicalOutlook c).Value (r.1, r.2.setCell i (.after job r.1)) := by
  have hjob : job.Carries (Placed h.rest) := hinv.jobs i job (Heap.job?_eq_some_iff.mpr ⟨_, hi, rfl⟩)
  refine ⟨hinv.setCell hjob nofun, hjob, fun r hends => ?_⟩
  have hle : Extends h.rest r.2.rest := hends.leads.toExtends
  refine ⟨Lexical.setCell hends.inv ?_ fun job' v hv => ?_, hends.leads, hends.result⟩
  · rw [Cell.job_after]
    exact hjob.imp hle.placed
  · match hr : r.1 with
    | .ok v' =>
      rw [hr] at hv
      cases hv
      exact hends.result v hr
    | .error e | .exhausted =>
      rw [hr] at hv
      cases hv

theorem objection_goes {r : Store Session} {e : Expr} {s : Scope} {near : Nat} {o : Objection}
    (hplaced : Placed r e s) (hpointer : pointer? e = some (o.term, near)) :
    Goes r (.error (.at s.address (.complaint (o.complaint near)))) r := by
  refine ⟨.refl _, rfl, fun e' he' => ?_⟩
  cases he'
  intro complaint hcause
  cases hcause
  obtain ⟨m, Γ, hm, hmem, -⟩ := hplaced
  exact ⟨s.address, m, Γ, e, near, rfl, hm, hmem, hpointer, rfl⟩

def lexicalDiscipline (c : Config) : Discipline Session where
  toOutlook := lexicalOutlook c
  refl _ := .refl _ nofun
  trans := Goes.trans
  visit_mono hle := hle.toExtends.placed _ _
  cell_mono _ := id
  part := fun ⟨m, Γ, hm, hmem, hfits⟩ hp => ⟨m, Γ, hm, Module.place_part hmem hp, hfits⟩
  found hinv _ hx := by
    obtain ⟨i, -, f, hf, hmem⟩ := Scope.mem_of_lookup? hx
    exact hinv.frames i f hf _ hmem _ rfl
  freshId hinv := ⟨⟨hinv.jobs, hinv.results, hinv.frames, hinv.values, hinv.modules, hinv.blamed⟩,
    .ok (.of_gains (.refl _) (.refl _) rfl) rfl, fun _ _ => trivial⟩
  alloc hinv hplaced := ⟨hinv.pushCell hplaced, .refl _ nofun, fun _ _ => trivial⟩
  enter := enter_ends
  done hinv _ hi := hinv.results _ _ _ hi
  run hinv _ hi := run_ends hinv hi
  exhausted _ := .refl _ nofun
  accident a _ := .refl _ nofun
  objection _ := objection_goes
  undefined _ _ _ := .of_ne nofun
  circular _ _ := .of_ne nofun
  circularName _ _ _ := .of_ne nofun

/-! ## The scope of a module -/

/-- A frame more, which binds certain names to nothing or to new cells, and new cells that wait for imports
of the module at an address. -/
structure Opens (h : EngineState) (address : String) (imports : List (String × String)) (names : List String)
    (h' : EngineState) : Prop where
  frame : ∃ g, h'.rest = { h.rest with frames := h.rest.frames.push g } ∧ Table.keys g = names.eraseDups ∧
    ∀ p ∈ g, ∀ x, p.2 = some x → ∃ i, x = .cell i ∧ h.cells.size ≤ i ∧ i < h'.cells.size
  le : h.cells.size ≤ h'.cells.size
  old : ∀ i : Nat, i < h.cells.size → h'.cells[i]? = h.cells[i]?
  new : ∀ (i : Nat) cell, h.cells.size ≤ i → h'.cells[i]? = some cell →
    ∃ i ∈ imports, cell = .waiting (.load address i.1 i.2)

namespace Opens

variable {h h' : EngineState} {address : String} {imports : List (String × String)} {names : List String}

theorem pushFrame (h : EngineState) (address : String) (imports : List (String × String)) :
    Opens h address imports [] (Heap.pushFrame h []) := by
  refine ⟨⟨[], rfl, rfl, by simp⟩, Nat.le_refl _, fun _ _ => rfl, fun i cell hle hcell => ?_⟩
  have hlt := (Array.getElem?_eq_some_iff.mp hcell).1
  exact absurd hlt (Nat.not_lt_of_le hle)

theorem pushCell (hopens : Opens h address imports names h') {i : String × String} (hi : i ∈ imports) :
    Opens h address imports names (Heap.pushCell h' (.load address i.1 i.2)) := by
  have hsize : (Heap.pushCell h' (.load address i.1 i.2)).cells.size = h'.cells.size + 1 := by
    rw [Heap.pushCell, Array.size_push]
  refine ⟨?_, ?_, fun k hk => ?_, fun k cell hle hcell => ?_⟩
  · obtain ⟨g, hrest, hkeys, hcells⟩ := hopens.frame
    refine ⟨g, hrest, hkeys, fun p hp x hx => ?_⟩
    obtain ⟨k, hk, hle, hlt⟩ := hcells p hp x hx
    exact ⟨k, hk, hle, by omega⟩
  · have hle := hopens.le
    omega
  · rw [Heap.getElem?_pushCell_of_lt (Nat.lt_of_lt_of_le hk hopens.le), hopens.old k hk]
  · rcases Heap.getElem?_pushCell hcell with hcell | rfl
    · exact hopens.new k cell hle hcell
    · exact ⟨i, hi, rfl⟩

/-- A name more in the new frame. -/
theorem insert (hopens : Opens h address imports names h') (name : String) {b : Option Slot}
    (hb : ∀ x, b = some x → ∃ i, x = .cell i ∧ h.cells.size ≤ i ∧ i < h'.cells.size) :
    Opens h address imports (names ++ [name]) { h' with rest := { h'.rest with
      frames := h'.rest.frames.modify h.rest.frames.size fun f => Table.insert f name b } } := by
  obtain ⟨g, hrest, hkeys, hcells⟩ := hopens.frame
  refine ⟨⟨Table.insert g name b, ?_, ?_, fun p hp x hx => ?_⟩, hopens.le, hopens.old, hopens.new⟩
  · rw [hrest, modify_push]
  · rw [Table.keys_insert, hkeys, ← Scope.addNames_nil, ← Scope.addNames_append, Scope.addNames_nil]
  · rcases Table.mem_insert hp with hp | rfl
    · exact hcells p hp x hx
    · exact hb x hx

/-- Imports are bound one after the other. -/
theorem bindImports (hopens : Opens h address imports names h') {is : List (String × String)}
    (his : is ⊆ imports) :
    ∃ h'', Engine.bindImports address ⟨address, [h.rest.frames.size]⟩ is h' = (.ok (), h'') ∧
      Opens h address imports (names ++ is.map Prod.fst) h'' := by
  induction is generalizing names h' with
  | nil => exact ⟨h', rfl, by rwa [List.map_nil, List.append_nil]⟩
  | cons i is ih =>
    have hcell := hopens.pushCell (his (List.mem_cons_self ..))
    obtain ⟨h'', heq, hopens'⟩ := ih (hcell.insert i.1 (b := some (.cell h'.cells.size)) fun x hx =>
        ⟨_, (Option.some.inj hx).symm, hopens.le, by rw [Heap.pushCell, Array.size_push]; omega⟩)
      fun j hj => his (List.mem_cons_of_mem _ hj)
    rw [List.append_assoc] at hopens'
    exact ⟨h'', heq, hopens'⟩

/-- Names are declared one after the other. -/
theorem declareAll (hopens : Opens h address imports names h') (ds : List Declaration) :
    ∃ h'', Engine.declareAll ⟨address, [h.rest.frames.size]⟩ ds h' = (.ok (), h'') ∧
      Opens h address imports (names ++ ds.map Declaration.name) h'' := by
  induction ds generalizing names h' with
  | nil => exact ⟨h', rfl, by rwa [List.map_nil, List.append_nil]⟩
  | cons d ds ih =>
    obtain ⟨h'', heq, hopens'⟩ := ih (hopens.insert d.name (b := none) nofun)
    rw [List.append_assoc] at hopens'
    exact ⟨h'', heq, hopens'⟩

/-- A cell was there before, or is new and waits for an import. -/
theorem cell_cases (hopens : Opens h address imports names h') {i : Nat} {cell : Cell Job Value}
    (hcell : h'.cells[i]? = some cell) :
    h.cells[i]? = some cell ∨ ∃ i ∈ imports, cell = .waiting (.load address i.1 i.2) := by
  rcases Nat.lt_or_ge i h.cells.size with hlt | hle
  · exact .inl (hopens.old i hlt ▸ hcell)
  · exact .inr (hopens.new i cell hle hcell)

theorem store_extends (hopens : Opens h address imports names h') : Extends h.rest h'.rest := by
  obtain ⟨g, hrest, -, -⟩ := hopens.frame
  rw [hrest]
  exact .pushFrame h g

theorem binds (hopens : Opens h address imports names h') : h'.rest.frames.Binds names h.rest.frames.size := by
  obtain ⟨g, hrest, hkeys, -⟩ := hopens.frame
  rw [hrest]
  exact ⟨g, Heap.getElem?_pushFrame_size h g, hkeys⟩

theorem lexical (hopens : Opens h address imports names h') (hinv : Lexical c h) : Lexical c h' := by
  obtain ⟨g, hrest, -, hcells⟩ := hopens.frame
  refine hinv.extend hopens.store_extends (fun i job hi => ?_) (fun i job v hi => .inl ?_)
    (fun i f hf p hp x hx => ?_) ?_ ?_ ?_
  · obtain ⟨cell, hcell, rfl⟩ := Heap.job?_eq_some_iff.mp hi
    rcases hopens.cell_cases hcell with hcell | ⟨_, _, rfl⟩
    · exact .inl (Heap.job?_eq_some_iff.mpr ⟨cell, hcell, rfl⟩)
    · exact .inr trivial
  · rcases hopens.cell_cases hi with hi | ⟨_, _, hi⟩
    · exact hi
    · cases hi
  · rw [hrest] at hf
    rcases Heap.getElem?_pushFrame (m := h) hf with hf | rfl
    · exact .inl ⟨f, hf, hp⟩
    · obtain ⟨k, rfl, -⟩ := hcells p hp x hx
      exact .inr trivial
  · rw [hrest]
    exact fun _ _ => .inl
  · rw [hrest]
    exact fun _ _ => .inl
  · rw [hrest]
    exact fun _ _ => .inl

end Opens

theorem openScope_opens (address : String) (m : Module) (h : EngineState) :
    ∃ h', openScope address m h = (.ok ⟨address, [h.rest.frames.size]⟩, h') ∧
      Opens h address m.imports m.globals h' := by
  obtain ⟨h₁, heq₁, hopens₁⟩ := (Opens.pushFrame h address m.imports).bindImports (List.Subset.refl _)
  obtain ⟨h₂, heq₂, hopens₂⟩ := hopens₁.declareAll m.declarations
  refine ⟨h₂, ?_, hopens₂⟩
  change Computation.bind (bindImports address ⟨address, [h.rest.frames.size]⟩ m.imports) _
    (Heap.pushFrame h []) = _
  rw [Computation.bind, heq₁]
  change Computation.bind (declareAll ⟨address, [h.rest.frames.size]⟩ m.declarations) _ h₁ = _
  rw [Computation.bind, heq₂]
  rfl

/-- A name that the innermost frame of a scope binds. -/
def Declared (r : Store Session) (scope : Scope) (name : String) : Prop :=
  ∃ i is f, scope.frames = i :: is ∧ r.frames[i]? = some f ∧ name ∈ Table.keys f

theorem Declared.mono {r r' : Store Session} {scope : Scope} {name : String} (hle : Extends r r')
    (hname : Declared r scope name) : Declared r' scope name := by
  obtain ⟨i, is, f, hframes, hf, hmem⟩ := hname
  obtain ⟨f', hf', hkeys⟩ := hle.frames i f hf
  exact ⟨i, is, f', hframes, hf', hkeys ▸ hmem⟩

/-- A declared name is given a value. Its frame binds the same names as before. -/
theorem assign_keeps {h : EngineState} {scope : Scope} {name : String} {x : Slot}
    (hname : Declared h.rest scope name) (hx : x.Carries (Placed h.rest)) :
    (lexicalDiscipline c).Keeps h (fun _ _ => True) (modifyFrames fun fs => scope.assign fs name x)
      (modifyFrames fun fs => scope.assign fs name x) := by
  obtain ⟨i, is, f, hframes, hf, hmem⟩ := hname
  have hassign (k : Nat) : (scope.assign h.rest.frames name x)[k]? =
      if i = k then some (Table.insert f name (some x)) else h.rest.frames[k]? := by
    rw [Scope.assign, Scope.modifyInner, hframes, Array.getElem?_modify]
    split
    · rename_i hk
      rw [← hk, hf]
      rfl
    · rfl
  have hle : Extends h.rest { h.rest with frames := scope.assign h.rest.frames name x } := by
    refine ⟨.refl _, .refl _, fun k g hg => ?_⟩
    rw [hassign]
    split
    · rename_i hk
      obtain rfl : f = g := Option.some.inj (hf.symm.trans (hk ▸ hg))
      exact ⟨_, rfl, (Table.keys_insert _ _ _).trans (Scope.addNames_of_subset (by simpa using hmem))⟩
    · exact ⟨g, hg, rfl⟩
  refine .of_ends fun hinv => ⟨?_, .ok hle rfl, fun _ _ => trivial⟩
  refine Lexical.setFrames hinv hle fun k g hg p hp y hy => ?_
  rw [hassign] at hg
  split at hg
  · rename_i hk
    obtain rfl := Option.some.inj hg
    rcases Table.mem_insert hp with hp | rfl
    · exact .inl ⟨f, hk ▸ hf, hp⟩
    · obtain rfl := Option.some.inj hy
      exact .inr (hx.imp hle.placed)
  · exact .inl ⟨g, hg, hp⟩

open Discipline

theorem assignAll_keeps {W W' : Walker Session} (hW : (lexicalDiscipline c).Respects W W') {h : EngineState}
    {scope : Scope} {ds : List Declaration}
    (hds : ∀ d ∈ ds, Placed h.rest d.expr scope ∧ Declared h.rest scope d.name) :
    (lexicalDiscipline c).Keeps h (fun _ _ => True) (assignAll (W.delay scope) scope ds)
      (assignAll (W'.delay scope) scope ds) := by
  induction ds generalizing h with
  | nil => exact Keeps.pure trivial
  | cons d ds ih =>
    obtain ⟨hplaced, hname⟩ := hds d (List.mem_cons_self ..)
    refine Keeps.bind (hW.delay hplaced) fun h₁ x hle₁ hx => ?_
    refine Keeps.bind (assign_keeps (hname.mono hle₁.toExtends) hx) fun h₂ _ hle₂ _ => ih fun d' hd' => ?_
    obtain ⟨hplaced', hname'⟩ := hds d' (List.mem_cons_of_mem _ hd')
    have hle := hle₁.toExtends.trans hle₂.toExtends
    exact ⟨hle.placed _ _ hplaced', hname'.mono hle⟩

/-- Where the scope of a module is made, it fits every place outside of functions. -/
theorem openScope_keeps {h : EngineState} {address : String} {m : Module}
    (hm : Table.find? h.rest.outer.modules address = some m) :
    (lexicalDiscipline c).Keeps h (fun h' scope =>
      (∀ e, ([], e) ∈ m.places → Placed h'.rest e scope) ∧
        ∀ d ∈ m.declarations, Declared h'.rest scope d.name)
      (openScope address m) (openScope address m) := by
  obtain ⟨h', heq, hopens⟩ := openScope_opens address m h
  refine .of_ends fun hinv => ?_
  rw [heq]
  refine ⟨hopens.lexical hinv, .ok hopens.store_extends ?_, fun scope hscope => ?_⟩
  · obtain ⟨g, hrest, -, -⟩ := hopens.frame
    rw [hrest]
  · obtain rfl := Outcome.ok.inj hscope
    refine ⟨fun e he => ⟨m, [], hopens.store_extends.modules _ _ hm, he, .cons hopens.binds .nil⟩,
      fun d hd => ?_⟩
    obtain ⟨f, hf, hkeys⟩ := hopens.binds
    refine ⟨_, _, f, rfl, hf, ?_⟩
    rw [hkeys, List.mem_eraseDups]
    exact List.mem_append_right _ (List.mem_map_of_mem hd)

theorem moduleScope_keeps {W W' : Walker Session} (hW : (lexicalDiscipline c).Respects W W') {h : EngineState}
    {address : String} {m : Module} (hm : Table.find? h.rest.outer.modules address = some m) :
    (lexicalDiscipline c).Keeps h (fun h' scope => ∀ e, m.body = some e → Placed h'.rest e scope)
      (moduleScope W address m) (moduleScope W' address m) := by
  refine Keeps.bind (openScope_keeps hm) fun h₁ scope _ ⟨hplaced, hnames⟩ => ?_
  refine Keeps.bind (assignAll_keeps hW fun d hd => ⟨hplaced _ (Module.place_declaration hd), hnames d hd⟩)
    fun h₂ _ hle _ => ?_
  exact Keeps.pure fun e he => hle.toExtends.placed _ _ (hplaced e (Module.place_of_body he))

/-! ## The engine -/

section Engine

variable {address : String} {s s' : Session}

/-- Nobody is blamed where a module is read. -/
theorem Parses.of_blamed {o : Outcome Trouble Module} (hparses : Parses c address s o s') {e : SemanticError}
    {a : String} (he : .blamed e a ∈ s'.journal) : .blamed e a ∈ s.journal := by
  cases hparses with
  | known _ => exact he
  | unread _ _ | refused _ _ | stored _ _ _ _ =>
    simpa [Session.store, Session.setLibrary, Session.consultAll, Session.consultReaders, Session.note]
      using he

theorem Parses.ne_semantic {o : Outcome Trouble Module} (hparses : Parses c address s o s') (e : SemanticError) :
    o.ending ≠ .error (.semantic e) := by
  cases hparses with
  | unread _ ho => rcases ho with rfl | ⟨a, rfl⟩ <;> nofun
  | known _ | refused _ _ | stored _ _ _ _ => nofun

/-- A module that has been read says what its text says. -/
theorem Parses.saysText {o : Outcome Trouble Module} (hparses : Parses c address s o s') {a : String}
    {m : Module} (hm : Table.find? s'.modules a = some m) : Table.find? s.modules a = some m ∨
      m.address = a ∧ SaysText c s'.library.cache.loaded m := by
  cases hparses with
  | known _ | unread _ _ | refused _ _ => exact .inl hm
  | stored hnew htext hsaid himports =>
    rw [Session.store, Session.note, Table.find?_insert] at hm
    split at hm
    · rename_i ha
      obtain rfl := Option.some.inj hm
      exact .inr ⟨ha.symm, _, _, htext, hsaid, rfl, rfl, himports⟩
    · exact .inl hm

theorem Blames.of_blamed {e e' : SemanticError} {t : Trouble} {a : String} (hblames : Blames e address s t s')
    (he : .blamed e' a ∈ s'.journal) : .blamed e' a ∈ s.journal ∨ e' = e ∧ a = culprit e address := by
  cases hblames with
  | told _ | untold _ =>
    rcases List.mem_cons.mp he with he | he
    · exact .inr (Event.blamed.inj he)
    · exact .inl he

theorem Blames.ne_semantic {e e' : SemanticError} {t : Trouble} (hblames : Blames e address s t s') :
    (.error t : Outcome Trouble Unit) ≠ .error (.semantic e') := by
  cases hblames <;> nofun

theorem Settles.of_blamed {o o' : Outcome Trouble Value} (hsettles : Settles address s o o' s')
    {e : SemanticError} {a : String} (he : .blamed e a ∈ s'.journal) :
    .blamed e a ∈ s.journal ∨ o = .error (.semantic e) ∧ a = culprit e address := by
  cases hsettles with
  | valued v => exact .inl (by simpa [Session.setValue, Session.leave, Session.note] using he)
  | blamed hblames =>
    rcases List.mem_cons.mp he with he | he
    · cases he
    · refine (hblames.of_blamed he).imp id ?_
      rintro ⟨rfl, rfl⟩
      exact ⟨rfl, rfl⟩
  | reported phase failed | accident a | exhausted =>
    exact .inl (by simpa [Session.setFailed, Session.leave, Session.note] using he)

theorem Settles.ne_semantic {o o' : Outcome Trouble Value} (hsettles : Settles address s o o' s')
    (e : SemanticError) : o'.ending ≠ .error (.semantic e) := by
  cases hsettles with
  | blamed hblames => exact hblames.ne_semantic
  | valued _ | reported _ _ | accident _ | exhausted => nofun

/-- A value comes from the body. -/
theorem Settles.eq_ok {o : Outcome Trouble Value} {v : Value} (hsettles : Settles address s o (.ok v) s') :
    o = .ok v := by
  cases hsettles
  rfl

theorem Settles.find?_values {o o' : Outcome Trouble Value} (hsettles : Settles address s o o' s') {a : String}
    {v : Value} (hv : Table.find? s'.values a = some v) :
    Table.find? s.values a = some v ∨ a = address ∧ o' = .ok v := by
  cases hsettles with
  | valued v' =>
    rw [Session.setValue, Session.note, Table.find?_insert] at hv
    split at hv
    · rename_i ha
      exact .inr ⟨ha, congrArg _ (Option.some.inj hv)⟩
    · exact .inl hv
  | blamed hblames => exact .inl (hblames.values_eq ▸ hv)
  | reported _ _ | accident _ | exhausted => exact .inl hv

theorem Settles.loaded {o o' : Outcome Trouble Value} (hsettles : Settles address s o o' s') :
    Table.Gains s.library.cache.loaded s'.library.cache.loaded := by
  cases hsettles with
  | blamed hblames => exact hblames.grows.loaded
  | valued _ | reported _ _ | accident _ | exhausted => exact .refl _

variable {h : EngineState}

theorem opened_extends {m : Module} {l : Library} (hopening : Opening c h address m s l) :
    Extends h.rest (opened h s l address).rest :=
  .of_gains hopening.parses.modules_gain (hopening.parses.grows.loaded.trans hopening.library.grows.loaded) rfl

theorem lexical_opened (hinv : Lexical c h) {m : Module} {l : Library} (hopening : Opening c h address m s l) :
    Lexical c (opened h s l address) := by
  refine hinv.setOuter (opened_extends hopening) (fun a v hv => .inl ?_) (fun a m' hm' => ?_)
    fun e a he => .inl ?_
  · exact hopening.parses.values_eq ▸ hv
  · exact (hopening.parses.saysText hm').imp id (And.imp_right (·.mono hopening.library.grows.loaded))
  · have he : .blamed e a ∈ s.journal := by simpa [Session.enter, Session.setLibrary, Session.note] using he
    simpa [Session.note] using hopening.parses.of_blamed he

/-- A module that cannot be read leaves everything in its place. -/
theorem lexical_unread (hinv : Lexical c h) {o : Outcome Trouble Module}
    (hparses : Parses c address (h.rest.outer.note (.demanded address)) o s) (ho : ∀ m, o ≠ .ok m)
    (failed : List String) : Lexical c (Heap.setOuter h (s.setFailed failed)) ∧
      Goes h.rest o.ending (Heap.setOuter h (s.setFailed failed)).rest := by
  have hmodules : s.modules = h.rest.outer.modules := hparses.modules_eq ho
  have hle : Extends h.rest { h.rest with outer := s.setFailed failed } :=
    .of_gains hparses.modules_gain hparses.grows.loaded rfl
  refine ⟨hinv.setOuter hle (fun a v hv => .inl ?_) (fun a m hm => .inl (hmodules ▸ hm)) fun e a he => .inl ?_,
    .of_extends hle hparses.evaluating_eq hparses.ne_semantic⟩
  · exact hparses.values_eq ▸ hv
  · simpa [Session.note] using hparses.of_blamed he

/-- The evaluation of a module is wound up: its value is kept, or what ended it is reported. -/
theorem lexical_settles {m : Module} {l : Library} (hopening : Opening c h address m s l)
    {r : Outcome Trouble Value × EngineState} {o : Outcome Trouble Value}
    (hends : (lexicalOutlook c).Ends (opened h s l address) (lexicalOutlook c).Value r)
    (hsettles : Settles address r.2.rest.outer r.1 o s') :
    (lexicalOutlook c).Ends h (lexicalOutlook c).Value (o, Heap.setOuter r.2 s') := by
  have hle : Extends r.2.rest { r.2.rest with outer := s' } :=
    .of_gains (hsettles.modules_eq ▸ .refl _) hsettles.loaded rfl
  have hresult (v : Value) (hv : o = .ok v) : v.Carries (Placed { r.2.rest with outer := s' }) := by
    rw [hv] at hsettles
    exact (hends.result v hsettles.eq_ok).imp hle.placed
  refine ⟨Lexical.setOuter hends.inv hle (fun a v hv => (hsettles.find?_values hv).imp id fun hv => hresult v hv.2)
    (fun a m hm => .inl (hsettles.modules_eq ▸ hm))
    (fun e a he => ?_), .of_extends ?_ ?_ hsettles.ne_semantic, hresult⟩
  · refine (hsettles.of_blamed he).imp id fun ⟨hr, ha⟩ => ⟨?_, address, ha⟩
    rw [hsettles.modules_eq]
    exact hends.leads.pointed e (by rw [hr]; rfl)
  · exact (opened_extends hopening).trans (hends.leads.toExtends.trans hle)
  · have hevaluating : r.2.rest.outer.evaluating = h.rest.outer.evaluating ++ [address] :=
      hends.leads.evaluating.trans (congrArg (· ++ [address]) hopening.parses.evaluating_eq)
    exact hsettles.evaluating_eq.trans (by rw [hevaluating, List.dropLast_concat])

theorem lexical_blames {h' : EngineState} {e : SemanticError} {t : Trouble} (hinv : Lexical c h')
    (hleads : Goes h.rest (.error (.semantic e)) h'.rest) (hblames : Blames e address h'.rest.outer t s) :
    Lexical c (Heap.setOuter h' s) ∧ Goes h.rest (.error t) (Heap.setOuter h' s).rest := by
  have hle : Extends h'.rest { h'.rest with outer := s } :=
    .of_gains (hblames.modules_eq ▸ .refl _) hblames.grows.loaded rfl
  refine ⟨hinv.setOuter hle (fun a v hv => .inl (hblames.values_eq ▸ hv))
    (fun a m hm => .inl (hblames.modules_eq ▸ hm)) fun e' a he => ?_, .of_extends (hleads.toExtends.trans hle)
    (hblames.evaluating_eq.trans hleads.evaluating) fun e' => hblames.ne_semantic⟩
  refine (hblames.of_blamed he).imp id ?_
  rintro ⟨rfl, rfl⟩
  refine ⟨?_, address, rfl⟩
  rw [hblames.modules_eq]
  exact hleads.pointed e' rfl

end Engine

/-- The engine keeps code where it stands. -/
def lexical (c : Config) : Conduct c where
  toDiscipline := lexicalDiscipline c
  ask _ _ := True
  ask_of_load _ _ _ := trivial
  known hinv _ hv := ⟨hinv.setOuter (.of_gains (.refl _) (.refl _) rfl) (fun _ _ => .inl) (fun _ _ => .inl)
      (fun _ _ he => .inl (by simpa [Session.note] using he)),
    .ok (.of_gains (.refl _) (.refl _) rfl) rfl, fun v h => by cases h; exact hinv.values _ _ hv⟩
  unread hinv _ _ := lexical_unread hinv
  opens hinv _ hopening := ⟨lexical_opened hinv hopening, fun hW => moduleScope_keeps hW <| by
    exact hopening.parses.find?_modules⟩
  settles _ _ hopening := lexical_settles hopening
  cycle _ _ _ := .of_ne nofun
  blames _ := lexical_blames

theorem lexical_lasts (c : Config) : (lexical c).Lasts where
  ask _ _ _ := trivial
  evaluating := Goes.evaluating
  change {h} world hinv := by
    have hle : Extends h.rest (inWorld world h).rest := .of_gains (.refl _) (.refl _) rfl
    exact ⟨Lexical.setOuter (c := c) hinv hle (fun _ _ => .inl) (fun _ _ => .inl) fun _ _ => .inl,
      Goes.ok hle rfl⟩

theorem lexical_start (c : Config) (library : Library) : Lexical c (.start library) where
  jobs i job hi := by simp [Heap.job?, EngineState.start] at hi
  results i job v hi := by simp [EngineState.start] at hi
  frames i f hf := by simp [EngineState.start] at hf
  values a v hv := by cases hv
  modules a m hm := by cases hm
  blamed e a he := by cases he

/-! ## Visits -/

theorem find_of_not_mem {scope : Scope} {name : String} (start : Nat) {h : EngineState}
    (hname : name ∉ scope.names h.rest.frames) : find scope name start h =
      (.error (.at scope.address (.undefinedName name (scope.names h.rest.frames))), h) := by
  simp only [find, Eval.frames, bind, Computation.bind, Scope.lookup?_eq_none_iff.mpr hname]
  rfl

/-- A name is undefined only where it cannot be seen. -/
theorem not_mem_of_find {scope : Scope} {name unknown : String} {start : Nat} {h : EngineState}
    {available : List String} {address : Option String}
    (hfind : (find scope name start h).1 = .error (.semantic ⟨.undefinedName unknown available, address⟩)) :
    name ∉ scope.names h.rest.frames := by
  cases hlookup : scope.lookup? h.rest.frames name with
  | none => exact Scope.lookup?_eq_none_iff.mp hlookup
  | some b =>
    simp only [find, Eval.frames, bind, Computation.bind, hlookup] at hfind
    cases b <;> cases hfind

/-- Lexical scoping. Whatever a run visits stands at a place in a module that has been read from its text,
in the grammar of the language at the one place with its offset. The scope of the visit is of that module,
and its names are those that can be seen from the place: the parameters of the functions around it,
innermost first, then the imports and the declarations of the module, each once. A name is undefined if and
only if it is none of them, and the error tells what they are. -/
theorem visited_lexically {c : Config} {library : Library} {requests : List Request} {e : Expr} {scope : Scope}
    {h : EngineState} (hvisited : Visited c library requests e scope h) :
    ∃ m Γ, Table.find? h.rest.outer.modules scope.address = some m ∧ m.address = scope.address ∧
      SaysText c h.rest.outer.library.cache.loaded m ∧ (Γ, e) ∈ m.places ∧
      (c.read = Reading.ofText → ∀ x ∈ m.places, x.2.start = e.start → x = (Γ, e)) ∧
      scope.names h.rest.frames = m.names Γ ∧
      ∀ name start, e = .lookup name start →
        (∀ address unknown available,
          (find scope name start h).1 = .error (.semantic ⟨.undefinedName unknown available, address⟩) ↔
            ¬ m.Sees Γ name ∧ address = some scope.address ∧ unknown = name ∧ available = m.names Γ) ∧
        (¬ m.Sees Γ name → ∀ W, step W e scope h =
          (.error (.at scope.address (.undefinedName name (m.names Γ))), h)) := by
  obtain ⟨hinv, m, Γ, hm, hmem, hfits⟩ := Conduct.visit_of_visited (lexical_lasts c) (lexical_start c library)
    hvisited
  obtain ⟨haddress, hsays⟩ := hinv.modules _ _ hm
  have hnames := Scope.names_of_fits hfits
  refine ⟨m, Γ, hm, haddress, hsays, hmem, fun hread x hx hstart => ?_, hnames, fun name start he => ?_⟩
  · obtain ⟨points, said, -, hsaid, hdeclarations, hbody, -⟩ := hsays
    rw [hread] at hsaid
    exact place_unique hsaid hdeclarations hbody hx hmem hstart
  · rw [← Module.mem_names_iff, ← hnames]
    refine ⟨fun address unknown available => ⟨fun hfind => ?_, ?_⟩, fun hname W => ?_⟩
    · have hname := not_mem_of_find hfind
      rw [find_of_not_mem start hname] at hfind
      cases hfind
      exact ⟨hname, rfl, rfl, rfl⟩
    · rintro ⟨hname, rfl, rfl, rfl⟩
      rw [find_of_not_mem start hname]
      rfl
    · rw [he]
      change Computation.bind (find scope name start) _ h = _
      rw [Computation.bind, find_of_not_mem start hname]

/-- A place inside two functions, in a call of a call. The inner parameter hides an import, so that there is one `a`. -/
theorem visited_lexically_calledFunction :
    let library : Library := ⟨⟨none, [], [("m", .text (Text.pointsOf "a \"a.0\" f = x => a => b f(1)(2)"))]⟩,
      .empty false, ⟨.empty, [], []⟩⟩
    ∃ scope h, Visited ⟨Reading.ofText, 3⟩ library [.evaluate "m"] (.lookup "b" 22) scope h ∧
      scope.address = "m" ∧ scope.names h.rest.frames = ["a", "x", "f"] ∧
      (find scope "b" 22 h).1 = .error (.semantic ⟨.undefinedName "b" ["a", "x", "f"], some "m"⟩) := by
  intro library
  let inner : Expr := .lambda ["a"] (.lookup "b" 22) 19
  let m : Module := ⟨"m", [("a", "a.0")], [⟨"f", .lambda ["x"] inner 14⟩],
    some (.call (.call (.lookup "f" 24) [.literal (.int 1) 26] 25) [.literal (.int 2) 29] 28)⟩
  let s : Session := ⟨library, [("m", m)], [], [], [], [.stored "m", .consulted .grammar "m",
    .consulted .importReader "m", .consulted .library "m", .demanded "m"]⟩
  have hparse : parse ⟨Reading.ofText, 3⟩ "m" (Heap.setOuter (EngineState.start library)
      ((Session.start library).note (.demanded "m"))) = (.ok m, ⟨#[], ⟨#[], 0, s⟩⟩) := rfl
  -- the frames of the module and of the two calls
  let f : Closure := ⟨0, ["x"], inner, ⟨"m", [0]⟩⟩
  let top : Frame Slot := [("a", some (.cell 0)), ("f", some (.closure f))]
  let outer : Frame Slot := [("x", some (.constant (.int 1)))]
  let called (frames : Frames Slot) (nextId : Nat) : EngineState :=
    ⟨#[.waiting (.load "m" "a" "a.0")], ⟨frames, nextId, s.enter "m"⟩⟩
  have hvisited : Visited ⟨Reading.ofText, 3⟩ library [.evaluate "m"] (.lookup "b" 22) ⟨"m", [2, 1, 0]⟩
      (called #[top, outer, [("a", some (.constant (.int 2)))]] 2) := by
    refine visited_of_body (d := 1) hparse rfl fun there alarm load => ⟨⟨"m", [0]⟩, called #[top] 1, rfl, ?_⟩
    have hf : trappedEval (trapAt 22 there) alarm load 1 (.lookup "f" 24) ⟨"m", [0]⟩ (called #[top] 1) =
      (.ok (.function f), called #[top] 1) := rfl
    have hg : trappedEval (trapAt 22 there) alarm load 2 (.call (.lookup "f" 24) [.literal (.int 1) 26] 25) ⟨"m", [0]⟩
        (called #[top] 1) = (.ok (.function ⟨1, ["a"], .lookup "b" 22, ⟨"m", [1, 0]⟩⟩), called #[top, outer] 2) :=
      trappedEval_call rfl hf
    exact trappedEval_call rfl hg
  obtain ⟨m', Γ, hm', -, -, -, hplace, hnames, hlookup⟩ := visited_lexically hvisited
  obtain rfl : m = m' := Option.some.inj hm'
  have hfound : ([["a"], ["x"]], .lookup "b" 22) ∈ m.places := by simp [m, inner, Module.places, Expr.places]
  obtain rfl : [["a"], ["x"]] = Γ := congrArg Prod.fst (hplace rfl _ hfound rfl)
  refine ⟨_, _, hvisited, rfl, hnames, ?_⟩
  exact ((hlookup _ _ rfl).1 _ _ _).mpr ⟨by simp [m, Module.Sees], rfl, rfl, rfl⟩

end LazyModules.Engine
