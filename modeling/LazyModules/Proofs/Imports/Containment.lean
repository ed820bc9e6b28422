import LazyModules.Proofs.Discipline.Session
import LazyModules.Proofs.Imports.Graph
import LazyModules.Proofs.Imports.Territory
import LazyModules.Proofs.Scoping.Lexical

/-!
# Evaluation stays among the modules that can be reached

Everything that a run touches leads only to imports of modules that can be reached from where the run comes
from, which is all of these at once: the modules that were asked for, each module under evaluation, and each
cell that is busy. So the invariant speaks of any set of modules that is closed under imports and has one of
these in it (`Encloses`): whatever is visited, demanded or loaded lies in its territory.

A function may be called from any module and a cell demanded by any, after the module that it belongs to has
been evaluated. This is why the results of cells are kept apart from who demanded them: the result of a cell
leads nowhere that the cell did not lead to (`Contained.results`).

**Results.** `containmentDiscipline`: evaluation keeps to this. `run_contained`: a cell that runs.
`moduleScope_contained`: the scope of a module, which leads only to the imports of the module.
-/
namespace LazyModules

/-- A heap with another outer state has the same cells and frames. -/
theorem Grows.setOuter {σ : Type} (h : Heap σ) (s : σ) : Grows h (Heap.setOuter h s) := ⟨id, id⟩

namespace Engine

open Eval Relation

variable {asked : String → Prop} {h h' : EngineState} {P : String → Prop}

/-! ## What is known of a state -/

/-- A set of modules closed under imports, in which the run goes on: all modules that were asked for are in
it, or one under evaluation, or a cell that is busy leads only to imports of them. -/
structure Encloses (asked : String → Prop) (h : EngineState) (P : String → Prop) : Prop where
  closed : Closed h.rest.outer.modules P
  within : (∀ a, asked a → P a) ∨ (∃ a ∈ h.rest.outer.evaluating, P a) ∨
    ∃ i : Nat, h.cells[i]?.any Cell.isBusy = true ∧ CellIn h P i

/-- Whatever there is in a state leads only to imports that were read, and no further than it should. -/
structure Contained (asked : String → Prop) (h : EngineState) : Prop where
  sound : Sound h
  loads : ∀ (i : Nat) importer name target, Heap.job? h i = some (.load importer name target) →
    ImportsAs h.rest.outer.modules importer name target
  results : ∀ (i : Nat) job v, h.cells[i]? = some (.done job v) → ∀ P, Closed h.rest.outer.modules P →
    CellIn h P i → ValueIn h P v
  values : ∀ a v, Table.find? h.rest.outer.values a = some v → ∀ P, Closed h.rest.outer.modules P → P a →
    ValueIn h P v
  chain : h.rest.outer.evaluating.IsChain (TransGen (Edge h.rest.outer.modules))
  blamed : ∀ e a, .blamed e a ∈ h.rest.outer.journal → Justified h.rest.outer.modules asked e

theorem encloses_all (asked : String → Prop) (h : EngineState) : Encloses asked h fun _ => True :=
  ⟨fun _ _ _ => id, .inl fun _ _ => trivial⟩

theorem lt_of_isBusy {i : Nat} (hi : h.cells[i]?.any Cell.isBusy = true) : i < h.cells.size := by
  by_contra hge
  rw [Array.getElem?_eq_none (Nat.le_of_not_lt hge)] at hi
  cases hi

namespace Contained

/-- Nothing is lost where a state goes on, so only what is new has to be looked at. -/
theorem extend (hinv : Contained asked h) (hle : Grows h h')
    (hmodules : Table.Gains h.rest.outer.modules h'.rest.outer.modules) (hsound : Sound h')
    (hloads : ∀ (i : Nat) importer name target, Heap.job? h' i = some (.load importer name target) →
      Heap.job? h i = some (.load importer name target) ∨
        ImportsAs h'.rest.outer.modules importer name target)
    (hresults : ∀ (i : Nat) job v, h'.cells[i]? = some (.done job v) → h.cells[i]? = some (.done job v) ∨
      ∀ P, Closed h'.rest.outer.modules P → CellIn h' P i → ValueIn h' P v)
    (hvalues : ∀ a v, Table.find? h'.rest.outer.values a = some v →
      Table.find? h.rest.outer.values a = some v ∨
        ∀ P, Closed h'.rest.outer.modules P → P a → ValueIn h' P v)
    (hchain : h'.rest.outer.evaluating.IsChain (TransGen (Edge h'.rest.outer.modules)))
    (hblamed : ∀ e a, .blamed e a ∈ h'.rest.outer.journal →
      .blamed e a ∈ h.rest.outer.journal ∨ Justified h'.rest.outer.modules asked e) : Contained asked h' where
  sound := hsound
  loads i importer name target hi :=
    (hloads i importer name target hi).elim (fun hi => (hinv.loads i _ _ _ hi).mono hmodules) id
  results i job v hi := by
    rcases hresults i job v hi with hi | hnew
    · intro P hP hcell
      have hlt := (Array.getElem?_eq_some_iff.mp hi).1
      exact (hinv.results i job v hi P (hP.anti hmodules) (hcell.shrink hle hinv.sound hlt)).grow hle
    · exact hnew
  values a v hv := by
    rcases hvalues a v hv with hv | hnew
    · exact fun P hP ha => (hinv.values a v hv P (hP.anti hmodules) ha).grow hle
    · exact hnew
  chain := hchain
  blamed e a he := (hblamed e a he).elim (fun he => (hinv.blamed e a he).mono hmodules) id

/-- The same session. -/
theorem setHeap (hinv : Contained asked h) (hle : Grows h h') (houter : h'.rest.outer = h.rest.outer)
    (hsound : Sound h')
    (hloads : ∀ (i : Nat) importer name target, Heap.job? h' i = some (.load importer name target) →
      Heap.job? h i = some (.load importer name target) ∨
        ImportsAs h.rest.outer.modules importer name target)
    (hresults : ∀ (i : Nat) job v, h'.cells[i]? = some (.done job v) → h.cells[i]? = some (.done job v) ∨
      ∀ P, Closed h.rest.outer.modules P → CellIn h' P i → ValueIn h' P v) : Contained asked h' := by
  refine hinv.extend hle ?_ hsound ?_ ?_ ?_ ?_ ?_
  all_goals rw [houter]
  · exact .refl _
  · exact hloads
  · exact hresults
  · exact fun _ _ => .inl
  · exact hinv.chain
  · exact fun _ _ => .inl

/-- Another session. -/
theorem setOuter (hinv : Contained asked h) {s : Session} (hmodules : Table.Gains h.rest.outer.modules s.modules)
    (hvalues : ∀ a v, Table.find? s.values a = some v → Table.find? h.rest.outer.values a = some v ∨
      ∀ P, Closed s.modules P → P a → ValueIn h P v)
    (hchain : s.evaluating.IsChain (TransGen (Edge s.modules)))
    (hblamed : ∀ e a, .blamed e a ∈ s.journal →
      .blamed e a ∈ h.rest.outer.journal ∨ Justified s.modules asked e) :
    Contained asked (Heap.setOuter h s) := by
  have hle : Grows h (Heap.setOuter h s) := .setOuter h s
  refine hinv.extend hle hmodules (hinv.sound.of_size_eq hle rfl rfl) (fun _ _ _ _ => .inl)
    (fun _ _ _ => .inl) (fun a v hv => ?_) hchain hblamed
  exact (hvalues a v hv).imp id fun hnew P hP ha => (hnew P hP ha).grow hle

end Contained

/-- How a state may go on: it grows, the same cells are busy and the same modules under evaluation, and an
error about a cycle of imports tells one. -/
structure Stays (asked : String → Prop) (h : EngineState) (o : Outcome Trouble Unit) (h' : EngineState) :
    Prop where
  sound : Sound h
  grows : Grows h h'
  cells : CellsKept h.cells h'.cells
  evaluating : h'.rest.outer.evaluating = h.rest.outer.evaluating
  modules : Table.Gains h.rest.outer.modules h'.rest.outer.modules
  justified : ∀ e, o = .error (.semantic e) → Justified h'.rest.outer.modules asked e

namespace Stays

variable {o : Outcome Trouble Unit} {h'' : EngineState}

/-- Only the heap changes, and no error is raised. -/
theorem ok (hsound : Sound h) (hle : Grows h h') (hcells : CellsKept h.cells h'.cells)
    (houter : h'.rest.outer = h.rest.outer) : Stays asked h (.ok ()) h' := by
  refine ⟨hsound, hle, hcells, ?_, ?_, nofun⟩
  · rw [houter]
  · rw [houter]
    exact .refl _

/-- Nothing changes, and an error is justified. -/
theorem same (hsound : Sound h) (ho : ∀ e, o = .error (.semantic e) → Justified h.rest.outer.modules asked e) :
    Stays asked h o h :=
  ⟨hsound, .refl _, .refl _, rfl, .refl _, ho⟩

/-- An error that is not about imports. -/
theorem of_ne (hsound : Sound h) {e : SemanticError}
    (he : ∀ importer name cycle, e.cause ≠ .cyclicImport importer name cycle) :
    Stays asked h (.error (.semantic e)) h := by
  refine .same hsound fun e' he' importer name cycle hcause => ?_
  cases he'
  exact absurd hcause (he importer name cycle)

theorem trans (hle : Stays asked h (.ok ()) h') (hle' : Stays asked h' o h'') : Stays asked h o h'' :=
  ⟨hle.sound, hle.grows.trans hle'.grows, hle.cells.trans hle'.cells, hle'.evaluating.trans hle.evaluating,
    hle.modules.trans hle'.modules, hle'.justified⟩

/-- A set in which the run goes on afterwards is one in which it went on before. -/
theorem encloses (hle : Stays asked h o h') (hP : Encloses asked h' P) : Encloses asked h P := by
  refine ⟨hP.closed.anti hle.modules, ?_⟩
  rcases hP.within with hasked | hevaluating | ⟨i, hbusy, hi⟩
  · exact .inl hasked
  · exact .inr (.inl (hle.evaluating ▸ hevaluating))
  · rw [hle.cells.busy] at hbusy
    exact .inr (.inr ⟨i, hbusy, hi.shrink hle.grows hle.sound (lt_of_isBusy hbusy)⟩)

end Stays

/-! ## Evaluation -/

def containmentOutlook (asked : String → Prop) : Outlook Session where
  inv := Contained asked
  leads := Stays asked
  visit h _ s := ∀ P, Encloses asked h P → ScopeIn h P s
  cell h i := ∀ P, Encloses asked h P → CellIn h P i
  load h importer name target := ImportsAs h.rest.outer.modules importer name target ∧
    ∀ P, Encloses asked h P → P importer

/-- A value leads only where the run goes on. -/
theorem valueIn_of_encloses {v : Value} (hv : (containmentOutlook asked).Value h v) (hP : Encloses asked h P) :
    ValueIn h P v :=
  hv.mono (fun _ _ hs => hs P hP) fun _ hi => hi P hP

theorem alloc_contained {e : Expr} {s : Scope} (hinv : Contained asked h)
    (hs : ∀ P, Encloses asked h P → ScopeIn h P s) :
    (containmentOutlook asked).Ends h (containmentOutlook asked).cell (Machine.alloc (.expr e s) h) := by
  have hle : Grows h (Heap.pushCell h (.expr e s)) := .pushCell h _
  have hleads : Stays asked h (.ok ()) (Heap.pushCell h (.expr e s)) := .ok hinv.sound hle (.push _ _) rfl
  refine ⟨hinv.setHeap hle rfl (hinv.sound.pushCell (hs _ (encloses_all asked h)))
    (fun i importer name target hi => ?_) (fun i job v hi => ?_), hleads, fun i hi P hP => ?_⟩
  · obtain ⟨cell, hcell, hjob⟩ := Heap.job?_eq_some_iff.mp hi
    rcases Heap.getElem?_pushCell hcell with hcell | rfl
    · exact .inl (Heap.job?_eq_some_iff.mpr ⟨cell, hcell, hjob⟩)
    · cases hjob
  · exact (Heap.getElem?_pushCell hi).imp id nofun
  · obtain rfl := Outcome.ok.inj hi
    have hjob : (Job.expr e s).Holds (fun _ => ScopeIn h P) fun importer _ _ => P importer :=
      hs P (hleads.encloses hP)
    exact cellIn_pushCell hjob

theorem enter_contained {params : List String} {body : Expr} {s : Scope} {xs : List Slot}
    (hinv : Contained asked h) (hs : ∀ P, Encloses asked h P → ScopeIn h P s)
    (hxs : ∀ x ∈ xs, (containmentOutlook asked).Slot h x) :
    (containmentOutlook asked).Ends h (fun h' s' => (containmentOutlook asked).visit h' body s')
      (enter s (params.zip xs) h) := by
  rw [enter_eq]
  have hframe (P : String → Prop) (hP : Encloses asked h P) (p : String × Option Slot)
      (hp : p ∈ callFrame (params.zip xs)) (x : Slot) (hx : p.2 = some x) : SlotIn h P x := by
    rcases mem_insertAll hp with hp | hp
    · cases hp
    · obtain ⟨q, hq, rfl⟩ := List.mem_map.mp hp
      obtain rfl := Option.some.inj hx
      exact (hxs _ (List.of_mem_zip hq).2).mono (fun _ _ hs => hs P hP) fun _ hi => hi P hP
  have hle : Grows h (Heap.pushFrame h (callFrame (params.zip xs))) := .pushFrame h _
  have hleads : Stays asked h (.ok ()) (Heap.pushFrame h (callFrame (params.zip xs))) :=
    .ok hinv.sound hle (.refl _) rfl
  refine ⟨hinv.setHeap hle rfl (hinv.sound.pushFrame (hframe _ (encloses_all asked h)))
    (fun _ _ _ _ => .inl) (fun _ _ _ => .inl), hleads, fun s' hs' P hP k hk => ?_⟩
  obtain rfl := Outcome.ok.inj hs'
  have hP' := hleads.encloses hP
  rcases List.mem_cons.mp hk with rfl | hk
  · exact frameIn_pushFrame (hframe P hP')
  · exact (hs P hP' k hk).grow hle

theorem eq_ok_of_after {job job' : Job} {o : Outcome Trouble Value} {v : Value}
    (hdone : Cell.done job' v = .after job o) : o = .ok v := by
  cases o with
  | ok v' =>
    cases hdone
    rfl
  | error e | exhausted => cases hdone

/-- A cell that ran. While it was busy, the run went on where the cell leads, so its result leads nowhere
else. -/
theorem run_ends_contained {i : Nat} {job : Job} (hinv : Contained asked h)
    (hcell : ∀ P, Encloses asked h P → CellIn h P i) (hi : h.cells[i]? = some (.waiting job))
    {r : Outcome Trouble Value × EngineState}
    (hends : (containmentOutlook asked).Ends (h.setCell i (.busy job)) (containmentOutlook asked).Value r) :
    (containmentOutlook asked).Ends h (containmentOutlook asked).Value (r.1, r.2.setCell i (.after job r.1)) := by
  have hstays : Stays asked (h.setCell i (.busy job)) r.1.ending r.2 := hends.leads
  have hjob : Heap.job? h i = some job := Heap.job?_eq_some_iff.mpr ⟨_, hi, rfl⟩
  have hle : Grows h r.2 := (Grows.setCell hjob).trans hstays.grows
  have hjob' : Heap.job? r.2 i = some (Cell.after job r.1).job := by
    rw [Cell.job_after]
    exact hle.job hjob
  have hafter : Grows r.2 (r.2.setCell i (.after job r.1)) := .setCell hjob'
  have hbusy : r.2.cells[i]?.any Cell.isBusy = true := by
    rw [hstays.cells.busy, Heap.getElem?_setCell_self hjob]
    rfl
  have hleads : Stays asked h r.1.ending (r.2.setCell i (.after job r.1)) :=
    ⟨hinv.sound, hle.trans hafter, hstays.cells.run hi r.1, hstays.evaluating, hstays.modules, hstays.justified⟩
  have hresult (v : Value) (hv : r.1 = .ok v) (P : String → Prop) (hP : Closed r.2.rest.outer.modules P)
      (hPi : CellIn r.2 P i) : ValueIn r.2 P v :=
    valueIn_of_encloses (hends.result v hv) ⟨hP, .inr (.inr ⟨i, hbusy, hPi⟩)⟩
  have hsound : Sound r.2 := hends.inv.sound
  refine ⟨Contained.setHeap hends.inv hafter rfl (hsound.of_size_eq hafter Array.size_setIfInBounds rfl)
    (fun k importer name target hk => .inl (by rwa [Heap.job?_setCell hjob'] at hk)) (fun k job' v hk => ?_),
    hleads, fun v hv => Value.Holds.forall fun P hP => ?_⟩
  · rcases Heap.getElem?_setCell hk with ⟨-, hold⟩ | ⟨rfl, hdone⟩
    · exact .inl hold
    · refine .inr fun P hP hPi => (hresult v (eq_ok_of_after hdone) P hP ?_).grow hafter
      exact hPi.shrink hafter hsound (Heap.lt_of_job? hjob')
  · have hPi := hcell P (hleads.encloses hP)
    exact (hresult v hv P hP.closed (hPi.grow hle)).grow hafter

/-- A cell that runs. -/
theorem run_contained {i : Nat} {job : Job} (hinv : Contained asked h)
    (hcell : ∀ P, Encloses asked h P → CellIn h P i) (hi : h.cells[i]? = some (.waiting job)) :
    Contained asked (h.setCell i (.busy job)) ∧
    (containmentOutlook asked).Wanted (h.setCell i (.busy job)) job ∧
    ∀ r, (containmentOutlook asked).Ends (h.setCell i (.busy job)) (containmentOutlook asked).Value r →
      (containmentOutlook asked).Ends h (containmentOutlook asked).Value
        (r.1, r.2.setCell i (.after job r.1)) := by
  have hjob : Heap.job? h i = some job := Heap.job?_eq_some_iff.mpr ⟨_, hi, rfl⟩
  have hbusy : Grows h (h.setCell i (.busy job)) := .setCell hjob
  -- where the run goes on when the cell is busy, the cell leads
  have hwithin (P : String → Prop) (hP : Encloses asked (h.setCell i (.busy job)) P) : CellIn h P i := by
    have hback (k : Nat) (hk : CellIn (h.setCell i (.busy job)) P k) (hlt : k < h.cells.size) : CellIn h P k :=
      hk.shrink hbusy hinv.sound hlt
    rcases hP.within with hasked | hevaluating | ⟨k, hkbusy, hk⟩
    · exact hcell P ⟨hP.closed, .inl hasked⟩
    · exact hcell P ⟨hP.closed, .inr (.inl hevaluating)⟩
    · by_cases hki : i = k
      · exact hki ▸ hback k hk (hki ▸ Heap.lt_of_job? hjob)
      · rw [Heap.getElem?_setCell_ne _ hki] at hkbusy
        exact hcell P ⟨hP.closed, .inr (.inr ⟨k, hkbusy, hback k hk (lt_of_isBusy hkbusy)⟩)⟩
  refine ⟨?_, ?_, fun r hends => ?_⟩
  · refine hinv.setHeap hbusy rfl (hinv.sound.of_size_eq hbusy Array.size_setIfInBounds rfl)
      (fun k importer name target hk => .inl (by rwa [Heap.job?_setCell hjob] at hk)) fun k job' v hk => ?_
    rcases Heap.getElem?_setCell hk with ⟨-, hk⟩ | ⟨-, hk⟩
    · exact .inl hk
    · cases hk
  · have hleads (P : String → Prop) (hP : Encloses asked (h.setCell i (.busy job)) P) :=
      (territory_all h P).job i job (hwithin P hP) hjob
    cases job with
    | expr e s => exact fun P hP => ScopeIn.grow (hleads P hP) hbusy
    | load importer name target => exact ⟨hinv.loads i _ _ _ hjob, hleads⟩
  · exact run_ends_contained hinv hcell hi hends

/-- Evaluation stays among the modules that can be reached. -/
def containmentDiscipline (asked : String → Prop) : Discipline Session where
  toOutlook := containmentOutlook asked
  refl hinv := .same hinv.sound nofun
  trans := Stays.trans
  visit_mono hle hs P hP := ScopeIn.grow (hs P (hle.encloses hP)) hle.grows
  cell_mono hle hi P hP := (hi P (hle.encloses hP)).grow hle.grows
  part hs _ := hs
  found {h _ _ s _} hinv hs hx := by
    obtain ⟨k, hk, f, hf, hmem⟩ := Scope.mem_of_lookup? hx
    exact Slot.Holds.forall fun P hP => (territory_all h P).slot k f (hs P hP k hk) hf _ hmem _ rfl
  freshId {h} hinv := by
    have hle : Grows h (Heap.useId h) := .useId h
    exact ⟨hinv.setHeap hle rfl (hinv.sound.of_size_eq hle rfl rfl) (fun _ _ _ _ => .inl) (fun _ _ _ => .inl),
      .ok hinv.sound hle (.refl _) rfl, fun _ _ => trivial⟩
  alloc := alloc_contained
  enter hinv hs hxs _ := enter_contained hinv hs hxs
  done hinv hcell hi := Value.Holds.forall fun P hP => hinv.results _ _ _ hi P hP.closed (hcell P hP)
  run := run_contained
  exhausted hinv := .same hinv.sound nofun
  accident _ hinv := .same hinv.sound nofun
  objection hinv _ _ := .of_ne hinv.sound nofun
  undefined hinv _ _ := .of_ne hinv.sound nofun
  circular hinv _ := .of_ne hinv.sound nofun
  circularName hinv _ _ := .of_ne hinv.sound nofun

/-! ## The scope of a module -/

/-- A state in which the scope of the module at an address is being made: there is a frame more, and new
cells. They lead only to one another and to the imports of the module. -/
structure Builds (h : EngineState) (address : String) (imports : List (String × String)) (h' : EngineState) :
    Prop where
  outer : h'.rest.outer = h.rest.outer
  frame : ∃ g, h'.rest.frames = h.rest.frames.push g ∧ ∀ p ∈ g, ∀ x, p.2 = some x →
    x.Holds (fun _ s => s.frames = [h.rest.frames.size]) fun i => h.cells.size ≤ i ∧ i < h'.cells.size
  le : h.cells.size ≤ h'.cells.size
  old : ∀ i : Nat, i < h.cells.size → h'.cells[i]? = h.cells[i]?
  new : ∀ (i : Nat) cell, h.cells.size ≤ i → h'.cells[i]? = some cell → ∃ job, cell = .waiting job ∧
    job.Holds (fun _ s => s.frames = [h.rest.frames.size]) fun importer name target =>
      importer = address ∧ (name, target) ∈ imports

theorem Opens.builds {address : String} {imports : List (String × String)} {names : List String}
    (hopens : Opens h address imports names h') : Builds h address imports h' := by
  obtain ⟨g, hrest, -, hcells⟩ := hopens.frame
  refine ⟨by rw [hrest], ⟨g, by rw [hrest], fun p hp x hx => ?_⟩, hopens.le, hopens.old, fun i cell hle hcell => ?_⟩
  · obtain ⟨i, rfl, hi⟩ := hcells p hp x hx
    exact hi
  · obtain ⟨i, hi, rfl⟩ := hopens.new i cell hle hcell
    exact ⟨_, rfl, rfl, hi⟩

namespace Builds

variable {address : String} {imports : List (String × String)}

/-- A cell more for an expression of the module. -/
theorem pushCell (hbuilds : Builds h address imports h') (e : Expr) :
    Builds h address imports (Heap.pushCell h' (.expr e ⟨address, [h.rest.frames.size]⟩)) := by
  have hsize : (Heap.pushCell h' (.expr e ⟨address, [h.rest.frames.size]⟩)).cells.size = h'.cells.size + 1 := by
    rw [Heap.pushCell, Array.size_push]
  have hle := hbuilds.le
  refine ⟨hbuilds.outer, ?_, by omega, fun i hi => ?_, fun i cell hge hcell => ?_⟩
  · obtain ⟨g, hg, hslots⟩ := hbuilds.frame
    refine ⟨g, hg, fun p hp x hx => (hslots p hp x hx).mono (fun _ _ => id) fun i hi => ?_⟩
    omega
  · rw [Heap.getElem?_pushCell_of_lt (Nat.lt_of_lt_of_le hi hle), hbuilds.old i hi]
  · rcases Heap.getElem?_pushCell hcell with hcell | rfl
    · exact hbuilds.new i cell hge hcell
    · exact ⟨_, rfl, rfl⟩

theorem useId (hbuilds : Builds h address imports h') : Builds h address imports (Heap.useId h') :=
  ⟨hbuilds.outer, hbuilds.frame, hbuilds.le, hbuilds.old, hbuilds.new⟩

/-- A name of the module is given a value. -/
theorem assign (hbuilds : Builds h address imports h') (name : String) {x : Slot}
    (hx : x.Holds (fun _ s => s.frames = [h.rest.frames.size]) fun i => h.cells.size ≤ i ∧ i < h'.cells.size) :
    Builds h address imports { h' with rest := { h'.rest with
      frames := Scope.assign ⟨address, [h.rest.frames.size]⟩ h'.rest.frames name x } } := by
  obtain ⟨g, hg, hslots⟩ := hbuilds.frame
  refine ⟨hbuilds.outer, ⟨Table.insert g name (some x), ?_, fun p hp y hy => ?_⟩, hbuilds.le, hbuilds.old,
    hbuilds.new⟩
  · simp only [Scope.assign, Scope.modifyInner, hg, modify_push]
  · rcases Table.mem_insert hp with hp | rfl
    · exact hslots p hp y hy
    · obtain rfl := Option.some.inj hy
      exact hx

/-- An expression of the module is delayed. -/
theorem delay (hbuilds : Builds h address imports h') (e : Expr) :
    ∃ x h'', Eval.delay ⟨address, [h.rest.frames.size]⟩ e h' = (.ok x, h'') ∧ Builds h address imports h'' ∧
      x.Holds (fun _ s => s.frames = [h.rest.frames.size]) fun i => h.cells.size ≤ i ∧ i < h''.cells.size := by
  cases e with
  | literal c _ => exact ⟨_, h', rfl, hbuilds, trivial⟩
  | lambda params body _ => exact ⟨_, _, rfl, hbuilds.useId, 0, rfl⟩
  | _ =>
    refine ⟨_, _, rfl, hbuilds.pushCell _, hbuilds.le, ?_⟩
    rw [Array.size_push]
    omega

theorem grows (hbuilds : Builds h address imports h') : Grows h h' := by
  refine ⟨fun {i job} hi => ?_, fun {k f} hk => ?_⟩
  · rw [← hi, Heap.job?, hbuilds.old i (Heap.lt_of_job? hi), Heap.job?]
  · obtain ⟨g, hg, -⟩ := hbuilds.frame
    rw [hg]
    exact (Grows.pushFrame h g).frame hk

theorem cells (hbuilds : Builds h address imports h') : CellsKept h.cells h'.cells := by
  refine ⟨fun i => ?_, fun i job v hi => ?_⟩
  · rcases Nat.lt_or_ge i h.cells.size with hlt | hge
    · rw [hbuilds.old i hlt]
    · rw [Array.getElem?_eq_none hge]
      cases hcell : h'.cells[i]? with
      | none => rfl
      | some cell =>
        obtain ⟨job, rfl, -⟩ := hbuilds.new i cell hge hcell
        rfl
  · rw [hbuilds.old i (Array.getElem?_eq_some_iff.mp hi).1, hi]

/-- What is new leads only to itself and to imports of the module. -/
theorem territory (hbuilds : Builds h address imports h') (hP : P address) :
    Territory h' P (fun i => h.cells.size ≤ i ∧ i < h'.cells.size) fun k => k = h.rest.frames.size := by
  obtain ⟨g, hg, hslots⟩ := hbuilds.frame
  have hwithin (s : Scope) (hs : s.frames = [h.rest.frames.size]) : s.AllFrames fun k => k = h.rest.frames.size := by
    intro k hk
    rwa [hs, List.mem_singleton] at hk
  refine ⟨fun i hi => hi.2, fun k hk => ?_, fun i job hi hjob => ?_, fun k f hk hf p hp x hx => ?_⟩
  · rw [hk, hg, Array.size_push]
    omega
  · obtain ⟨cell, hcell, rfl⟩ := Heap.job?_eq_some_iff.mp hjob
    obtain ⟨job, rfl, hholds⟩ := hbuilds.new i cell hi.1 hcell
    refine hholds.mono (fun _ => hwithin) ?_
    rintro importer name target ⟨rfl, -⟩
    exact hP
  · rw [hk, hg, Array.getElem?_push_size] at hf
    obtain rfl := Option.some.inj hf
    exact (hslots p hp x hx).imp fun _ => hwithin

/-- What can be seen from the module. -/
theorem scopeIn (hbuilds : Builds h address imports h') (hP : P address) :
    ScopeIn h' P ⟨address, [h.rest.frames.size]⟩ := by
  intro k hk
  exact ⟨_, _, hbuilds.territory hP, List.mem_singleton.mp hk⟩

theorem stays (hbuilds : Builds h address imports h') (hsound : Sound h) : Stays asked h (.ok ()) h' :=
  .ok hsound hbuilds.grows hbuilds.cells hbuilds.outer

theorem contained (hbuilds : Builds h address imports h') (hinv : Contained asked h)
    (himports : ∀ i ∈ imports, ImportsAs h.rest.outer.modules address i.1 i.2) : Contained asked h' := by
  have hnew := hbuilds.territory (P := fun _ => True) trivial
  refine hinv.setHeap hbuilds.grows hbuilds.outer (hinv.sound.grow hbuilds.grows ?_ ?_) ?_ ?_
  · exact fun i hge hlt => ⟨_, _, hnew, hge, hlt⟩
  · intro k hge hlt
    obtain ⟨g, hg, -⟩ := hbuilds.frame
    rw [hg, Array.size_push] at hlt
    exact ⟨_, _, hnew, by omega⟩
  · intro i importer name target hjob
    obtain ⟨cell, hcell, hjob⟩ := Heap.job?_eq_some_iff.mp hjob
    rcases Nat.lt_or_ge i h.cells.size with hlt | hge
    · exact .inl (Heap.job?_eq_some_iff.mpr ⟨cell, hbuilds.old i hlt ▸ hcell, hjob⟩)
    · obtain ⟨job, rfl, hholds⟩ := hbuilds.new i cell hge hcell
      obtain rfl : job = .load importer name target := hjob
      obtain ⟨rfl, hmem⟩ := hholds
      exact .inr (himports _ hmem)
  · intro i job v hi
    rcases Nat.lt_or_ge i h.cells.size with hlt | hge
    · exact .inl (hbuilds.old i hlt ▸ hi)
    · obtain ⟨job', hcell, -⟩ := hbuilds.new i _ hge hi
      cases hcell

end Builds

section ModuleScope

variable {address : String} {m : Module} {W W' : Walker Session}

/-- Declarations get their values, by walkers that do the same. -/
theorem assignAll_builds (hW : (containmentOutlook asked).Respects W W') (hinv : Contained asked h)
    (haddress : ∀ P, Encloses asked h P → P address)
    (himports : ∀ i ∈ m.imports, ImportsAs h.rest.outer.modules address i.1 i.2) (ds : List Declaration)
    (hbuilds : Builds h address m.imports h') :
    let scope : Scope := ⟨address, [h.rest.frames.size]⟩
    assignAll (W'.delay scope) scope ds h' = assignAll (W.delay scope) scope ds h' ∧
      ∃ h'', assignAll (W.delay scope) scope ds h' = (.ok (), h'') ∧ Builds h address m.imports h'' := by
  intro scope
  induction ds generalizing h' with
  | nil => exact ⟨rfl, h', rfl, hbuilds⟩
  | cons d ds ih =>
    have hvisit : (containmentOutlook asked).visit h' d.expr scope := fun P hP =>
      hbuilds.scopeIn (haddress P ((hbuilds.stays hinv.sound).encloses hP))
    obtain ⟨hsame, -⟩ := hW.delay hvisit (hbuilds.contained hinv himports)
    obtain ⟨x, h₁, hdelay, hbuilds₁, hx⟩ := hbuilds.delay d.expr
    rw [← hW.delays] at hdelay
    have hstep (W : Walker Session) (heq : W.delay scope d.expr h' = (.ok x, h₁)) :
        assignAll (W.delay scope) scope (d :: ds) h' = assignAll (W.delay scope) scope ds
          { h₁ with rest := { h₁.rest with frames := scope.assign h₁.rest.frames d.name x } } := by
      simp only [assignAll, bind, Computation.bind, heq, modifyFrames]
    rw [hstep W hdelay, hstep W' (hsame.trans hdelay)]
    exact ih (hbuilds₁.assign d.name hx)

/-- The scope of a module leads only to its imports. -/
theorem moduleScope_contained (hW : (containmentOutlook asked).Respects W W')
    (haddress : ∀ P, Encloses asked h P → P address) (hm : Table.find? h.rest.outer.modules address = some m) :
    (containmentOutlook asked).Keeps h (fun h' scope => ∀ e, m.body = some e →
      (containmentOutlook asked).visit h' e scope) (moduleScope W address m) (moduleScope W' address m) := by
  intro hinv
  have himports : ∀ i ∈ m.imports, ImportsAs h.rest.outer.modules address i.1 i.2 := fun i hi => ⟨m, hm, hi⟩
  obtain ⟨h₁, hopen, hopens⟩ := openScope_opens address m h
  obtain ⟨hsame, h₂, hassign, hbuilds⟩ := assignAll_builds hW hinv haddress himports m.declarations hopens.builds
  have hscope (W : Walker Session) (heq : assignAll (W.delay ⟨address, [h.rest.frames.size]⟩)
      ⟨address, [h.rest.frames.size]⟩ m.declarations h₁ = (.ok (), h₂)) :
      moduleScope W address m h = (.ok ⟨address, [h.rest.frames.size]⟩, h₂) := by
    simp only [moduleScope, bind, Computation.bind, hopen, heq]
    rfl
  rw [hscope W hassign, hscope W' (hsame.trans hassign)]
  have hleads : Stays asked h (.ok ()) h₂ := hbuilds.stays hinv.sound
  refine ⟨rfl, hbuilds.contained hinv himports, hleads, fun scope hscope e _ P hP => ?_⟩
  obtain rfl := Outcome.ok.inj hscope
  exact hbuilds.scopeIn (haddress P (hleads.encloses hP))

end ModuleScope

end Engine

end LazyModules
