import LazyModules.Proofs.Engine.Consultations
import LazyModules.Proofs.Engine.Journal
import LazyModules.Proofs.Engine.Layout
import LazyModules.Proofs.Imports.Cycles

/-!
# Imports are loaded on demand

A cell that waits for an import is made when the scope of a module is, and nothing has it but the frame of
that scope, under the name of the import. A cell is demanded only where a name is looked up, so the module
looks the name up, at a place where no parameter stands before it. If a later import or a declaration has the
same name, the frame does not have the cell any more, and nobody demands it.

Once demanded, the cell may well be handed on: a call binds it to a parameter under any name. So the
invariant tells two kinds of frames apart, those of calls, where every cell is one that may be demanded
(`Fine`), and those of modules, where it depends on the name (`ModuleFrame`).

**Results.**
* `onDemand`: the conduct.
* `touched_on_demand`: a text that nobody asked for is loaded or fetched only if a module that has been read needs it.
* `loaded_on_demand`: in every run, a module that nobody asked for is looked for only if it is needed in this way by a
  module that has been read.
-/
namespace LazyModules

/-- The import that a name of a module stands for: the last one of that name, if the name is not declared. -/
def Module.ImportsLast (m : Module) (name target : String) : Prop :=
  ∃ before after, m.imports = before ++ (name, target) :: after ∧ name ∉ after.map Prod.fst ∧
    name ∉ m.declarations.map Declaration.name

/-- A module looks a name up at a place where no parameter has that name. -/
def Module.LooksUp (m : Module) (name : String) : Prop :=
  ∃ Γ start, (Γ, .lookup name start) ∈ m.places ∧ ∀ params ∈ Γ, name ∉ params

namespace Engine

open Eval

/-- A module that has been read needs an import: it looks up the name that stands for it. -/
def Needs (modules : Table Module) (importer name target : String) : Prop :=
  ∃ m, Table.find? modules importer = some m ∧ m.ImportsLast name target ∧ m.LooksUp name

theorem Needs.mono {modules modules' : Table Module} {importer name target : String}
    (hneeds : Needs modules importer name target) (hle : Table.Gains modules modules') :
    Needs modules' importer name target := by
  obtain ⟨m, hm, hneeds⟩ := hneeds
  exact ⟨m, hle _ _ hm, hneeds⟩

/-! ## What is known of a state -/

/-- A cell that may be demanded: if it waits for an import, that is needed. -/
def Fine (h : EngineState) (i : Nat) : Prop :=
  ∃ job, Heap.job? h i = some job ∧ job.Holds (fun _ _ => True) (Needs h.rest.outer.modules)

/-- The frame of a call binds the parameters, and cells that may be demanded. -/
def CallFrame (h : EngineState) (params : List String) (k : Nat) : Prop :=
  ∃ f, h.rest.frames[k]? = some f ∧ params ⊆ Table.keys f ∧
    ∀ name i, Table.find? f name = some (some (.cell i)) → Fine h i

/-- The frame of a module binds a name to the import that the name stands for, if to any. -/
def ModuleFrame (h : EngineState) (m : Module) (k : Nat) : Prop :=
  ∃ f, h.rest.frames[k]? = some f ∧ ∀ name i, Table.find? f name = some (some (.cell i)) →
    ∃ job, Heap.job? h i = some job ∧ job.Holds (fun _ _ => True) fun importer name' target =>
      importer = m.address ∧ name' = name ∧ m.ImportsLast name target

/-- An expression at a place in a module, and a scope with the frames of the calls around it and that of the
module. -/
def Seen (h : EngineState) (e : Expr) (s : Scope) : Prop :=
  ∃ m Γ calls k, Table.find? h.rest.outer.modules s.address = some m ∧ m.address = s.address ∧
    (Γ, e) ∈ m.places ∧ s.frames = calls ++ [k] ∧ List.Forall₂ (CallFrame h) Γ calls ∧ ModuleFrame h m k

/-- Somebody asked for an address, or a module needs it that has been read before. -/
def Warrant (asked : String → Prop) (modules : Table Module) (earlier : List Event) (address : String) : Prop :=
  asked address ∨ ∃ importer name, Needs modules importer name address ∧ .stored importer ∈ earlier

/-- Whenever a module was looked for, there was a warrant for it. -/
def Warranted (asked : String → Prop) (modules : Table Module) (journal : List Event) : Prop :=
  ∀ later source a earlier, journal = later ++ .consulted source a :: earlier → Warrant asked modules earlier a

theorem Warrant.mono {asked : String → Prop} {modules modules' : Table Module} {earlier earlier' : List Event}
    {address : String} (hwarrant : Warrant asked modules earlier address)
    (hmodules : Table.Gains modules modules') (hearlier : earlier ⊆ earlier') :
    Warrant asked modules' earlier' address := by
  refine hwarrant.imp id ?_
  rintro ⟨importer, name, hneeds, hstored⟩
  exact ⟨importer, name, hneeds.mono hmodules, hearlier hstored⟩

namespace Warranted

variable {asked : String → Prop} {modules modules' : Table Module} {journal : List Event}

theorem mono (hold : Warranted asked modules journal) (hmodules : Table.Gains modules modules') :
    Warranted asked modules' journal :=
  fun later source a earlier heq => (hold later source a earlier heq).mono hmodules (List.Subset.refl _)

/-- Events are written down one after the other. -/
theorem append (hold : Warranted asked modules journal) {new : List Event}
    (hnew : ∀ source a, .consulted source a ∈ new → Warrant asked modules journal a) :
    Warranted asked modules (new ++ journal) := by
  induction new with
  | nil => exact hold
  | cons e new ih =>
    have hold' := ih fun source a ha => hnew source a (List.mem_cons_of_mem _ ha)
    intro later source a earlier heq
    cases later with
    | nil =>
      obtain ⟨rfl, rfl⟩ := List.cons.inj heq
      exact (hnew source a (List.mem_cons_self ..)).mono (.refl _) (List.subset_append_right ..)
    | cons _ later => exact hold' later source a earlier (List.cons.inj heq).2

end Warranted

/-- What is known of a state. -/
structure OnDemand (asked : String → Prop) (h : EngineState) : Prop where
  jobs : ∀ (i : Nat) job, Heap.job? h i = some job → job.Carries (Seen h)
  results : ∀ (i : Nat) job v, h.cells[i]? = some (.done job v) → v.Holds (Seen h) (Fine h)
  frames : ∀ (k : Nat) f, h.rest.frames[k]? = some f → ∀ name x, Table.find? f name = some (some x) →
    x.Carries (Seen h)
  values : ∀ a v, Table.find? h.rest.outer.values a = some v → v.Holds (Seen h) (Fine h)
  modules : ∀ a m, Table.find? h.rest.outer.modules a = some m →
    m.address = a ∧ .stored a ∈ h.rest.outer.journal
  journal : Warranted asked h.rest.outer.modules h.rest.outer.journal

/-- How a state may go on: nothing is lost. -/
structure Widens (h h' : EngineState) : Prop where
  grows : Grows h h'
  modules : Table.Gains h.rest.outer.modules h'.rest.outer.modules

namespace Widens

variable {h h' h'' : EngineState}

theorem refl (h : EngineState) : Widens h h := ⟨.refl h, .refl _⟩

theorem trans (hle : Widens h h') (hle' : Widens h' h'') : Widens h h'' :=
  ⟨hle.grows.trans hle'.grows, hle.modules.trans hle'.modules⟩

/-- Another session. -/
theorem setOuter {s : Session} (hmodules : Table.Gains h.rest.outer.modules s.modules) :
    Widens h (Heap.setOuter h s) :=
  ⟨.setOuter h s, hmodules⟩

/-- The same session. -/
theorem of_grows (hle : Grows h h') (houter : h'.rest.outer = h.rest.outer) : Widens h h' :=
  ⟨hle, houter ▸ .refl _⟩

theorem fine (hle : Widens h h') (i : Nat) (hi : Fine h i) : Fine h' i := by
  obtain ⟨job, hjob, hneeds⟩ := hi
  exact ⟨job, hle.grows.job hjob, hneeds.mono (fun _ _ => id) fun _ _ _ hneeds => hneeds.mono hle.modules⟩

theorem callFrame (hle : Widens h h') (params : List String) (k : Nat) (hk : CallFrame h params k) :
    CallFrame h' params k := by
  obtain ⟨f, hf, hparams, hcells⟩ := hk
  exact ⟨f, hle.grows.frame hf, hparams, fun name i hi => hle.fine i (hcells name i hi)⟩

theorem moduleFrame (hle : Widens h h') {m : Module} {k : Nat} (hk : ModuleFrame h m k) : ModuleFrame h' m k := by
  obtain ⟨f, hf, hcells⟩ := hk
  refine ⟨f, hle.grows.frame hf, fun name i hi => ?_⟩
  obtain ⟨job, hjob, himport⟩ := hcells name i hi
  exact ⟨job, hle.grows.job hjob, himport⟩

theorem seen (hle : Widens h h') (e : Expr) (s : Scope) (hseen : Seen h e s) : Seen h' e s := by
  obtain ⟨m, Γ, calls, k, hm, haddress, hmem, hframes, hcalls, hk⟩ := hseen
  exact ⟨m, Γ, calls, k, hle.modules _ _ hm, haddress, hmem, hframes, hcalls.imp hle.callFrame, hle.moduleFrame hk⟩

theorem value (hle : Widens h h') {v : Value} (hv : v.Holds (Seen h) (Fine h)) : v.Holds (Seen h') (Fine h') :=
  hv.mono hle.seen hle.fine

end Widens

namespace OnDemand

variable {asked : String → Prop} {h h' : EngineState}

/-- Nothing is lost where a state goes on, so only what is new has to be looked at. -/
theorem extend (hinv : OnDemand asked h) (hle : Widens h h')
    (hjobs : ∀ (i : Nat) job, Heap.job? h' i = some job → Heap.job? h i = some job ∨ job.Carries (Seen h'))
    (hresults : ∀ (i : Nat) job v, h'.cells[i]? = some (.done job v) →
      h.cells[i]? = some (.done job v) ∨ v.Holds (Seen h') (Fine h'))
    (hframes : ∀ (k : Nat) f, h'.rest.frames[k]? = some f → h.rest.frames[k]? = some f ∨
      ∀ name x, Table.find? f name = some (some x) → x.Carries (Seen h'))
    (houter : h'.rest.outer = h.rest.outer) : OnDemand asked h' where
  jobs i job hi := (hjobs i job hi).elim (fun hi => (hinv.jobs i job hi).imp hle.seen) id
  results i job v hi := (hresults i job v hi).elim (fun hi => hle.value (hinv.results i job v hi)) id
  frames k f hf := (hframes k f hf).elim (fun hf name x hx => (hinv.frames k f hf name x hx).imp hle.seen) id
  values a v hv := hle.value (hinv.values a v (houter ▸ hv))
  modules := houter ▸ hinv.modules
  journal := houter ▸ hinv.journal

/-- Another session. -/
theorem setOuter (hinv : OnDemand asked h) {s : Session}
    (hgain : Table.Gains h.rest.outer.modules s.modules)
    (hvalues : ∀ a v, Table.find? s.values a = some v → Table.find? h.rest.outer.values a = some v ∨
      v.Holds (Seen h) (Fine h))
    (hmodules : ∀ a m, Table.find? s.modules a = some m → m.address = a ∧ .stored a ∈ s.journal)
    (hjournal : Warranted asked s.modules s.journal) : OnDemand asked (Heap.setOuter h s) := by
  have hle : Widens h (Heap.setOuter h s) := .setOuter hgain
  refine ⟨fun i job hi => (hinv.jobs i job hi).imp hle.seen, fun i job v hi => hle.value (hinv.results i job v hi),
    fun k f hf name x hx => (hinv.frames k f hf name x hx).imp hle.seen, fun a v hv => ?_, hmodules, hjournal⟩
  exact hle.value ((hvalues a v hv).elim (hinv.values a v) id)

theorem pushCell (hinv : OnDemand asked h) {e : Expr} {s : Scope} (hseen : Seen h e s) :
    OnDemand asked (Heap.pushCell h (.expr e s)) := by
  have hle : Widens h (Heap.pushCell h (.expr e s)) := .of_grows (.pushCell h _) rfl
  refine hinv.extend hle (fun i job hi => ?_) (fun i job v hi => (Heap.getElem?_pushCell hi).imp id nofun)
    (fun _ _ => .inl) rfl
  obtain ⟨cell, hcell, rfl⟩ := Heap.job?_eq_some_iff.mp hi
  rcases Heap.getElem?_pushCell hcell with hcell | rfl
  · exact .inl (Heap.job?_eq_some_iff.mpr ⟨cell, hcell, rfl⟩)
  · exact .inr (hle.seen e s hseen)

/-- A cell in another state, with the same job. -/
theorem setCell (hinv : OnDemand asked h) {i : Nat} {cell : Cell Job Value}
    (hjob : Heap.job? h i = some cell.job) (hresult : ∀ job v, cell = .done job v → v.Holds (Seen h) (Fine h)) :
    OnDemand asked (h.setCell i cell) := by
  have hle : Widens h (h.setCell i cell) := .of_grows (.setCell hjob) rfl
  refine hinv.extend hle (fun k job hk => .inl (by rwa [Heap.job?_setCell hjob] at hk)) (fun k job v hk => ?_)
    (fun _ _ => .inl) rfl
  rcases Heap.getElem?_setCell hk with ⟨-, hk⟩ | ⟨-, hcell⟩
  · exact .inl hk
  · exact .inr (hle.value (hresult job v hcell.symm))

end OnDemand

/-! ## Evaluation -/

variable {asked : String → Prop} {h : EngineState}

/-- Only what is needed is demanded. -/
def onDemandOutlook (asked : String → Prop) : Outlook Session where
  inv := OnDemand asked
  leads h _ h' := Widens h h'
  visit := Seen
  cell := Fine
  load h := Needs h.rest.outer.modules

/-- What a name is bound to by the frames of the calls around a place, or else by the frame of the module. The
latter only if it is no parameter. -/
theorem lookupIn_cases {Γ : List (List String)} {calls : List Nat} (hcalls : List.Forall₂ (CallFrame h) Γ calls)
    {k : Nat} {name : String} {b : Option Slot}
    (hb : Scope.lookupIn h.rest.frames name (calls ++ [k]) = some b) :
    (∃ i, ∃ params ∈ Γ, CallFrame h params i ∧ Table.find? (h.rest.frames.frame i) name = some b) ∨
      Table.find? (h.rest.frames.frame k) name = some b ∧ ∀ params ∈ Γ, name ∉ params := by
  induction hcalls with
  | nil =>
    simp only [List.nil_append, Scope.lookupIn] at hb
    split at hb
    · rename_i hfind
      exact .inr ⟨hfind.trans hb, by simp⟩
    · cases hb
  | @cons params i Γ calls hi hcalls ih =>
    simp only [List.cons_append, Scope.lookupIn] at hb
    split at hb
    · rename_i hfind
      exact .inl ⟨i, params, List.mem_cons_self .., hi, hfind.trans hb⟩
    · rename_i hnone
      obtain ⟨f, hf, hparams, -⟩ := hi
      have hparam : name ∉ params := by
        intro hmem
        rw [Frames.frame, hf, Option.getD_some, Table.find?_eq_none_iff] at hnone
        exact hnone (hparams hmem)
      rcases ih hb with ⟨j, params', hmem, hj⟩ | ⟨hfind, hothers⟩
      · exact .inl ⟨j, params', List.mem_cons_of_mem _ hmem, hj⟩
      · exact .inr ⟨hfind, by simpa using ⟨hparam, hothers⟩⟩

theorem find?_frame {k : Nat} {f : Frame Slot} (hf : h.rest.frames[k]? = some f) (name : String) :
    Table.find? (h.rest.frames.frame k) name = Table.find? f name := by
  rw [Frames.frame, hf, Option.getD_some]

/-- A cell that a name stands for may be demanded where the name is looked up. -/
theorem fine_of_lookup {name : String} {start : Nat} {s : Scope} {i : Nat}
    (hseen : Seen h (.lookup name start) s) (hi : s.lookup? h.rest.frames name = some (some (.cell i))) :
    Fine h i := by
  obtain ⟨m, Γ, calls, k, hm, haddress, hmem, hframes, hcalls, hk⟩ := hseen
  rw [Scope.lookup?, hframes] at hi
  rcases lookupIn_cases hcalls hi with ⟨j, params, -, ⟨f, hf, -, hcells⟩, hfind⟩ | ⟨hfind, hparams⟩
  · rw [find?_frame hf] at hfind
    exact hcells name i hfind
  · obtain ⟨f, hf, hcells⟩ := hk
    rw [find?_frame hf] at hfind
    obtain ⟨job, hjob, himport⟩ := hcells name i hfind
    refine ⟨job, hjob, himport.mono (fun _ _ => id) ?_⟩
    rintro importer name' target ⟨rfl, rfl, hlast⟩
    exact ⟨m, haddress ▸ hm, hlast, Γ, start, hmem, hparams⟩

theorem found_seen (hinv : OnDemand asked h) {name : String} {start : Nat} {s : Scope} {x : Slot}
    (hseen : Seen h (.lookup name start) s) (hx : s.lookup? h.rest.frames name = some (some x)) :
    x.Holds (Seen h) (Fine h) := by
  have hcarries : x.Carries (Seen h) := by
    obtain ⟨m, Γ, calls, k, hm, haddress, hmem, hframes, hcalls, hk⟩ := hseen
    rw [Scope.lookup?, hframes] at hx
    rcases lookupIn_cases hcalls hx with ⟨j, params, -, ⟨f, hf, -, hcells⟩, hfind⟩ | ⟨hfind, hparams⟩
    · rw [find?_frame hf] at hfind
      exact hinv.frames j f hf name x hfind
    · obtain ⟨f, hf, hcells⟩ := hk
      rw [find?_frame hf] at hfind
      exact hinv.frames k f hf name x hfind
  cases x with
  | constant c => trivial
  | closure f => exact hcarries
  | cell i => exact fine_of_lookup hseen hx

theorem enter_onDemand {params : List String} {body : Expr} {start : Nat} {s : Scope} {xs : List Slot}
    (hinv : OnDemand asked h) (hseen : Seen h (.lambda params body start) s)
    (hxs : ∀ x ∈ xs, x.Holds (Seen h) (Fine h)) (hlength : xs.length = params.length) :
    (onDemandOutlook asked).Ends h (fun h' s' => Seen h' body s') (enter s (params.zip xs) h) := by
  rw [enter_eq]
  have hle : Widens h (Heap.pushFrame h (callFrame (params.zip xs))) := .of_grows (.pushFrame h _) rfl
  have hslot (name : String) (x : Slot) (hx : Table.find? (callFrame (params.zip xs)) name = some (some x)) :
      x ∈ xs := by
    rcases mem_insertAll (Table.mem_of_find? hx) with hp | hp
    · cases hp
    · obtain ⟨q, hq, heq⟩ := List.mem_map.mp hp
      obtain rfl := Option.some.inj (Prod.mk.inj heq).2
      exact (List.of_mem_zip hq).2
  refine ⟨hinv.extend hle (fun _ _ => .inl) (fun _ _ _ => .inl) (fun k f hf => ?_) rfl, hle, fun s' hs' => ?_⟩
  · refine (Heap.getElem?_pushFrame hf).imp id ?_
    rintro rfl name x hx
    exact (hxs x (hslot name x hx)).mono hle.seen fun _ _ => trivial
  · obtain rfl := Outcome.ok.inj hs'
    obtain ⟨m, Γ, calls, k, hm, haddress, hmem, hframes, hcalls, hk⟩ := hseen
    refine ⟨m, params :: Γ, h.rest.frames.size :: calls, k, hm, haddress, Module.place_body hmem, ?_,
      .cons ⟨_, Heap.getElem?_pushFrame_size h _, ?_, fun name i hi => ?_⟩ (hcalls.imp hle.callFrame),
      hle.moduleFrame hk⟩
    · rw [hframes, List.cons_append]
    · intro name hname
      rwa [keys_callFrame hlength, List.mem_eraseDups]
    · exact hle.fine i (hxs _ (hslot name _ hi))

theorem run_onDemand {i : Nat} {job : Job} (hinv : OnDemand asked h) (hcell : Fine h i)
    (hi : h.cells[i]? = some (.waiting job)) :
    OnDemand asked (h.setCell i (.busy job)) ∧ (onDemandOutlook asked).Wanted (h.setCell i (.busy job)) job ∧
      ∀ r, (onDemandOutlook asked).Ends (h.setCell i (.busy job)) (onDemandOutlook asked).Value r →
        (onDemandOutlook asked).Ends h (onDemandOutlook asked).Value (r.1, r.2.setCell i (.after job r.1)) := by
  have hjob : Heap.job? h i = some job := Heap.job?_eq_some_iff.mpr ⟨_, hi, rfl⟩
  have hbusy : Widens h (h.setCell i (.busy job)) := .of_grows (.setCell hjob) rfl
  refine ⟨hinv.setCell hjob nofun, ?_, fun r hends => ?_⟩
  · cases job with
    | expr e s => exact hbusy.seen e s (hinv.jobs i _ hjob)
    | load importer name target =>
      obtain ⟨job', hjob', hneeds⟩ := hcell
      obtain rfl := Option.some.inj (hjob.symm.trans hjob')
      exact hneeds
  · have hle : Widens h r.2 := hbusy.trans hends.leads
    have hjob' : Heap.job? r.2 i = some (Cell.after job r.1).job := by
      rw [Cell.job_after]
      exact hle.grows.job hjob
    have hafter : Widens r.2 (r.2.setCell i (.after job r.1)) := .of_grows (.setCell hjob') rfl
    refine ⟨OnDemand.setCell hends.inv hjob' fun job' v hv => ?_, hle.trans hafter, fun v hv => ?_⟩
    · exact hends.result v (eq_ok_of_after hv.symm)
    · exact hafter.value (hends.result v hv)

def onDemandDiscipline (asked : String → Prop) : Discipline Session where
  toOutlook := onDemandOutlook asked
  refl _ := .refl _
  trans := Widens.trans
  visit_mono hle := hle.seen _ _
  cell_mono hle := hle.fine _
  part := fun ⟨m, Γ, calls, k, hm, haddress, hmem, hrest⟩ hp =>
    ⟨m, Γ, calls, k, hm, haddress, Module.place_part hmem hp, hrest⟩
  found hinv hseen := found_seen hinv hseen
  freshId {h} hinv := by
    have hle : Widens h (Heap.useId h) := .of_grows (.useId h) rfl
    exact ⟨hinv.extend hle (fun _ _ => .inl) (fun _ _ _ => .inl) (fun _ _ => .inl) rfl, hle, fun _ _ => trivial⟩
  alloc {h e s} hinv hseen := by
    refine ⟨hinv.pushCell hseen, .of_grows (.pushCell h _) rfl, fun i hi => ?_⟩
    obtain rfl := Outcome.ok.inj hi
    exact ⟨_, Heap.job?_pushCell_size h (.expr e s), trivial⟩
  enter := enter_onDemand
  done hinv _ hi := hinv.results _ _ _ hi
  run := run_onDemand
  exhausted _ := .refl _
  accident _ _ := .refl _
  objection _ _ _ := .refl _
  undefined _ _ _ := .refl _
  circular _ _ := .refl _
  circularName _ _ _ := .refl _

/-! ## The scope of a module -/

/-- A layout in which a name stands for an import only if that is the last one of its name so far, and the name
is none of those that have been declared. -/
structure Draws (g : Ground) (m : Module) (imports : List (String × String)) (declared : List String)
    (l : Layout) : Prop where
  jobs : ∀ job ∈ l.jobs, job.Carries fun e s => ([], e) ∈ m.places ∧ s = g.scope
  slots : ∀ name x, Table.find? l.frame name = some (some x) →
    x.Holds (fun e s => ([], e) ∈ m.places ∧ s = g.scope) fun i => ∃ j job, i = g.cell + j ∧
      l.jobs[j]? = some job ∧ job.Holds (fun _ _ => True) fun importer name' target =>
        importer = g.address ∧ name' = name ∧ name ∉ declared ∧
          ∃ before after, imports = before ++ (name, target) :: after ∧ name ∉ after.map Prod.fst

namespace Draws

variable {g : Ground} {m : Module} {imports : List (String × String)} {declared : List String} {l : Layout}

theorem bindImport (hdraws : Draws g m imports [] l) (i : String × String) :
    Draws g m (imports ++ [i]) [] (g.bindImport l i) := by
  refine ⟨fun job hjob => ?_, fun name x hx => ?_⟩
  · rcases List.mem_append.mp hjob with hjob | hjob
    · exact hdraws.jobs job hjob
    · rw [List.mem_singleton.mp hjob]
      trivial
  · rw [Ground.bindImport, Table.find?_insert] at hx
    split at hx
    · rename_i hname
      obtain rfl := Option.some.inj (Option.some.inj hx)
      exact ⟨l.jobs.length, _, rfl, List.getElem?_concat_length, rfl, hname.symm, by simp, imports, [], by simp [hname], by simp⟩
    · rename_i hname
      refine (hdraws.slots name x hx).mono (fun _ _ => id) ?_
      rintro k ⟨j, job, rfl, hj, hjob⟩
      refine ⟨j, job, rfl, ?_, hjob.mono (fun _ _ => id) ?_⟩
      · rw [Ground.bindImport, List.getElem?_append_left (List.getElem?_eq_some_iff.mp hj).1, hj]
      · rintro importer name' target ⟨himporter, hname', hdeclared, before, after, rfl, hafter⟩
        exact ⟨himporter, hname', hdeclared, before, after ++ [i], by simp, by simp_all⟩

/-- A name that is declared stands for no import any more. -/
theorem declare (hdraws : Draws g m imports declared l) (d : Declaration) :
    Draws g m imports (declared ++ [d.name]) { l with frame := Table.insert l.frame d.name none } := by
  refine ⟨hdraws.jobs, fun name x hx => ?_⟩
  rw [Table.find?_insert] at hx
  split at hx
  · cases hx
  · rename_i hname
    refine (hdraws.slots name x hx).mono (fun _ _ => id) ?_
    rintro k ⟨j, job, rfl, hj, hjob⟩
    refine ⟨j, job, rfl, hj, hjob.mono (fun _ _ => id) ?_⟩
    rintro importer name' target ⟨himporter, hname', hdeclared, hlast⟩
    exact ⟨himporter, hname', by simp [hdeclared, hname], hlast⟩

/-- A slot for an expression of the module, and the layout with it. -/
theorem delay (hdraws : Draws g m imports declared l) {e : Expr} (he : ([], e) ∈ m.places) (name : String) :
    Draws g m imports declared
      { (g.delay l e).2 with frame := Table.insert (g.delay l e).2.frame name (some (g.delay l e).1) } := by
  have hconstant (x : Slot) (n : Nat) (hx : x.Holds (fun e s => ([], e) ∈ m.places ∧ s = g.scope) fun _ => False) :
      Draws g m imports declared ⟨Table.insert l.frame name (some x), l.jobs, n⟩ := by
    refine ⟨hdraws.jobs, fun name' y hy => ?_⟩
    rw [Table.find?_insert] at hy
    split at hy
    · obtain rfl := Option.some.inj (Option.some.inj hy)
      exact hx.mono (fun _ _ => id) fun _ => False.elim
    · exact hdraws.slots name' y hy
  have hcell : Draws g m imports declared
      ⟨Table.insert l.frame name (some (.cell (g.cell + l.jobs.length))), l.jobs ++ [.expr e g.scope], l.nextId⟩ := by
    refine ⟨fun job hjob => ?_, fun name' y hy => ?_⟩
    · rcases List.mem_append.mp hjob with hjob | hjob
      · exact hdraws.jobs job hjob
      · rw [List.mem_singleton.mp hjob]
        exact ⟨he, rfl⟩
    · rw [Table.find?_insert] at hy
      split at hy
      · obtain rfl := Option.some.inj (Option.some.inj hy)
        exact ⟨l.jobs.length, _, rfl, List.getElem?_concat_length, trivial⟩
      · refine (hdraws.slots name' y hy).mono (fun _ _ => id) ?_
        rintro k ⟨j, job, rfl, hj, hjob⟩
        refine ⟨j, job, rfl, ?_, hjob⟩
        rw [List.getElem?_append_left (List.getElem?_eq_some_iff.mp hj).1, hj]
  cases e with
  | literal c start => exact hconstant _ _ trivial
  | lambda params body start => exact hconstant _ _ ⟨start, he, rfl⟩
  | _ => exact hcell

/-- The names of a module. -/
theorem names (g : Ground) (m : Module) (nextId : Nat) :
    Draws g m m.imports (m.declarations.map Declaration.name) (g.names m nextId) := by
  have himports (is : List (String × String)) : Draws g m is [] (is.foldl g.bindImport ⟨[], [], nextId⟩) := by
    induction is using List.reverseRecOn with
    | nil => exact ⟨by simp, by simp [Table.find?]⟩
    | append_singleton is i ih =>
      rw [List.foldl_append]
      exact ih.bindImport i
  have hdeclared (ds : List Declaration) : Draws g m m.imports (ds.map Declaration.name)
      (ds.foldl (fun l d => { l with frame := Table.insert l.frame d.name none })
        (m.imports.foldl g.bindImport ⟨[], [], nextId⟩)) := by
    induction ds using List.reverseRecOn with
    | nil => exact himports m.imports
    | append_singleton ds d ih =>
      rw [List.foldl_append, List.map_append]
      exact ih.declare d
  exact hdeclared m.declarations

/-- The names of a module, some of which have their values. -/
theorem assign (hdraws : Draws g m imports declared l) {ds : List Declaration}
    (hds : ∀ d ∈ ds, ([], d.expr) ∈ m.places) : Draws g m imports declared (ds.foldl g.assign l) := by
  induction ds generalizing l with
  | nil => exact hdraws
  | cons d ds ih =>
    exact ih (hdraws.delay (hds d (List.mem_cons_self ..)) d.name) fun d' hd' => hds d' (List.mem_cons_of_mem _ hd')

end Draws

section ModuleScope

variable {address : String} {m : Module} {l : Layout}

/-- What a layout holds is seen in the module. -/
theorem seen_laid (hm : Table.find? h.rest.outer.modules address = some m) (haddress : m.address = address)
    (hdraws : Draws (ground h address) m m.imports (m.declarations.map Declaration.name) l) {e : Expr}
    (he : ([], e) ∈ m.places) : Seen (laid h l) e (ground h address).scope := by
  refine ⟨m, [], [], h.rest.frames.size, hm, haddress, he, rfl, .nil, l.frame, frame_laid h l, fun name i hi => ?_⟩
  obtain ⟨j, job, rfl, hj, himport⟩ := hdraws.slots name _ hi
  refine ⟨job, (job?_laid h l j).trans hj, himport.mono (fun _ _ => id) ?_⟩
  rintro importer name' target ⟨rfl, rfl, hdeclared, before, after, himports, hafter⟩
  exact ⟨haddress.symm, rfl, before, after, himports, hafter, hdeclared⟩

theorem onDemand_laid (hinv : OnDemand asked h) (hm : Table.find? h.rest.outer.modules address = some m)
    (hdraws : Draws (ground h address) m m.imports (m.declarations.map Declaration.name) l) :
    OnDemand asked (laid h l) := by
  have hle : Widens h (laid h l) := .of_grows (grows_laid h l) rfl
  have hseen (e : Expr) (s : Scope) (he : ([], e) ∈ m.places ∧ s = (ground h address).scope) :
      Seen (laid h l) e s := by
    rw [he.2]
    exact seen_laid hm (hinv.modules _ _ hm).1 hdraws he.1
  refine hinv.extend hle (fun i job hi => ?_) (fun i job v hi => ?_) (fun k f hf => ?_) rfl
  · obtain ⟨cell, hcell, rfl⟩ := Heap.job?_eq_some_iff.mp hi
    rcases getElem?_laid_cases h l hcell with hcell | ⟨job, hjob, rfl⟩
    · exact .inl (Heap.job?_eq_some_iff.mpr ⟨cell, hcell, rfl⟩)
    · exact .inr ((hdraws.jobs job hjob).imp hseen)
  · rcases getElem?_laid_cases h l hi with hi | ⟨job, -, hjob⟩
    · exact .inl hi
    · cases hjob
  · refine (getElem?_frames_laid h l hf).imp id ?_
    rintro ⟨-, rfl⟩ name x hx
    exact (hdraws.slots name x hx).mono hseen fun _ _ => trivial

/-- The scope of a module leads only to imports that the module needs. -/
theorem moduleScope_onDemand {W W' : Walker Session} (hW : (onDemandOutlook asked).Respects W W')
    (hm : Table.find? h.rest.outer.modules address = some m) :
    (onDemandOutlook asked).Keeps h (fun h' scope => ∀ e, m.body = some e → Seen h' e scope)
      (moduleScope W address m) (moduleScope W' address m) := by
  intro hinv
  have hplaces (ds : List Declaration) (hds : ds ⊆ m.declarations) (d : Declaration) (hd : d ∈ ds) :
      ([], d.expr) ∈ m.places := Module.place_declaration (hds hd)
  have hdraws (ds : List Declaration) (hds : ds ⊆ m.declarations) :=
    (Draws.names (ground h address) m h.rest.nextId).assign (hplaces ds hds)
  have hall := hdraws m.declarations (List.Subset.refl _)
  have hscope : moduleScope W address m h =
      (.ok (ground h address).scope, laid h ((ground h address).layout m h.rest.nextId)) :=
    moduleScope_eq fun before d after hds => by rw [hW.delays]
  have hscope' : moduleScope W' address m h =
      (.ok (ground h address).scope, laid h ((ground h address).layout m h.rest.nextId)) := by
    refine moduleScope_eq fun before d after hds => ?_
    have hbefore := hdraws before (by simp [hds])
    have hseen := seen_laid hm (hinv.modules _ _ hm).1 hbefore (Module.place_declaration (d := d) (by simp [hds]))
    dsimp only
    rw [(hW.delay hseen (onDemand_laid hinv hm hbefore)).1, hW.delays]
  rw [hscope, hscope']
  refine ⟨rfl, onDemand_laid hinv hm hall, .of_grows (grows_laid h _) rfl, fun scope hs e he => ?_⟩
  obtain rfl := Outcome.ok.inj hs
  exact seen_laid hm (hinv.modules _ _ hm).1 hall (Module.place_of_body he)

end ModuleScope

/-! ## The engine -/

section Engine

variable {c : Config} {address : String} {s s' : Session}

/-- The value of a module may be asked for if somebody asked for it or a module needs it. -/
def Askable (asked : String → Prop) (h : EngineState) (address : String) : Prop :=
  asked address ∨ ∃ importer name, Needs h.rest.outer.modules importer name address

theorem OnDemand.warrant (hinv : OnDemand asked h) (hask : Askable asked h address) :
    Warrant asked h.rest.outer.modules h.rest.outer.journal address := by
  refine hask.imp id ?_
  rintro ⟨importer, name, m, hm, hneeds⟩
  exact ⟨importer, name, ⟨m, hm, hneeds⟩, (hinv.modules importer m hm).2⟩

/-- The same modules, and more that has happened, among it nothing that needs a warrant. -/
theorem OnDemand.note (hinv : OnDemand asked h) (new : List Event) (hmodules : s.modules = h.rest.outer.modules)
    (hjournal : s.journal = new ++ h.rest.outer.journal) (hnew : ∀ source a, .consulted source a ∉ new)
    (hvalues : ∀ a v, Table.find? s.values a = some v → Table.find? h.rest.outer.values a = some v ∨
      v.Holds (Seen h) (Fine h)) : OnDemand asked (Heap.setOuter h s) := by
  refine hinv.setOuter (hmodules ▸ .refl _) hvalues (fun a m hm => ?_) ?_
  · rw [hmodules] at hm
    rw [hjournal]
    exact (hinv.modules a m hm).imp_right (List.mem_append_right _)
  · rw [hmodules, hjournal]
    exact hinv.journal.append fun source a ha => absurd ha (hnew source a)

/-- A module is read. -/
theorem OnDemand.parse (hinv : OnDemand asked h) (hask : Askable asked h address) {o : Outcome Trouble Module}
    (hparses : Parses c address (h.rest.outer.note (.demanded address)) o s) :
    OnDemand asked (Heap.setOuter h s) := by
  obtain ⟨new, hjournal, hnew⟩ := hparses.journal_eq
  have hgain : Table.Gains h.rest.outer.modules s.modules := hparses.modules_gain
  have hjournal : s.journal = (new ++ [.demanded address]) ++ h.rest.outer.journal := by
    rw [hjournal, List.append_assoc]
    rfl
  refine hinv.setOuter hgain (fun a v hv => .inl (hparses.values_eq ▸ hv)) (fun a m hm => ?_) ?_
  · have hold (hm : Table.find? h.rest.outer.modules a = some m) : m.address = a ∧ .stored a ∈ s.journal := by
      rw [hjournal]
      exact (hinv.modules a m hm).imp_right (List.mem_append_right _)
    cases hparses with
    | known _ | unread _ _ | refused _ _ => exact hold hm
    | stored _ _ _ _ =>
      rw [Session.store, Session.note, Table.find?_insert] at hm
      split at hm
      · rename_i ha
        obtain rfl := Option.some.inj hm
        exact ⟨ha.symm, by simp [Session.store, Session.note, ha]⟩
      · exact hold hm
  · rw [hjournal]
    refine (hinv.journal.mono hgain).append fun source a ha => ?_
    have ha : .consulted source a ∈ new := by simpa using ha
    obtain heq | ⟨source', heq⟩ := hnew _ ha
    · cases heq
    · obtain ⟨-, rfl⟩ := Event.consulted.inj heq
      exact (hinv.warrant hask).mono hgain (List.Subset.refl _)

/-- The evaluation of a module is wound up. -/
theorem onDemand_settles {m : Module} {l : Library} (hopening : Opening c h address m s l)
    {r : Outcome Trouble Value × EngineState} {o : Outcome Trouble Value}
    (hends : (onDemandOutlook asked).Ends (opened h s l address) (onDemandOutlook asked).Value r)
    (hsettles : Settles address r.2.rest.outer r.1 o s') :
    (onDemandOutlook asked).Ends h (onDemandOutlook asked).Value (o, Heap.setOuter r.2 s') := by
  have hinv : OnDemand asked r.2 := hends.inv
  have hopened : Widens h (opened h s l address) := .setOuter hopening.parses.modules_gain
  have hle : Widens r.2 (Heap.setOuter r.2 s') := .setOuter (hsettles.modules_eq ▸ .refl _)
  have hresult (v : Value) (hv : o = .ok v) : v.Holds (Seen r.2) (Fine r.2) := by
    rw [hv] at hsettles
    exact hends.result v hsettles.eq_ok
  obtain ⟨new, hjournal, hnew⟩ := hsettles.quiet
  refine ⟨hinv.note new hsettles.modules_eq hjournal hnew fun a v hv => ?_, hopened.trans (hends.leads.trans hle),
    fun v hv => hle.value (hresult v hv)⟩
  exact (hsettles.find?_values hv).imp id fun hv => hresult v hv.2

/-- The engine loads only what is needed. -/
def onDemand (c : Config) (asked : String → Prop) : Conduct c where
  toDiscipline := onDemandDiscipline asked
  ask := Askable asked
  ask_of_load _ hneeds _ := .inr ⟨_, _, hneeds⟩
  known {h address v} hinv _ hv := by
    have hle : Widens h (Heap.setOuter h (h.rest.outer.note (.demanded address))) := .setOuter (.refl _)
    refine ⟨hinv.note [.demanded address] rfl rfl (by simp) fun _ _ => .inl, hle, fun v' hv' => ?_⟩
    obtain rfl := Outcome.ok.inj hv'
    exact hle.value (hinv.values address v hv)
  unread hinv hask _ hparses _ failed := by
    have hinv' := hinv.parse hask hparses
    exact ⟨hinv'.note [] rfl rfl (by simp) fun _ _ => .inl, .setOuter hparses.modules_gain⟩
  opens hinv hask hopening := by
    have hinv' := hinv.parse hask hopening.parses
    exact ⟨hinv'.note [.entered _] rfl rfl (by simp) fun _ _ => .inl,
      fun hW => moduleScope_onDemand hW hopening.parses.find?_modules⟩
  settles _ _ hopening := onDemand_settles hopening
  cycle _ _ _ := .refl _
  blames _ hinv hle hblames := by
    obtain ⟨new, hjournal, hnew⟩ := hblames.quiet
    exact ⟨OnDemand.note hinv new hblames.modules_eq hjournal hnew fun a v hv => .inl (hblames.values_eq ▸ hv),
      hle.trans (.setOuter (hblames.modules_eq ▸ .refl _))⟩

end Engine

/-! ## Runs -/

theorem inWorld_onDemand (hinv : OnDemand asked h) (world : World) :
    OnDemand asked (inWorld world h) ∧ Widens h (inWorld world h) :=
  ⟨hinv.note [] rfl rfl (by simp) fun _ _ => .inl, .setOuter (.refl _)⟩

theorem serve_onDemand {c : Config} (qs : List Request) (hqs : ∀ a, Asked qs a → asked a)
    (hinv : OnDemand asked h) : OnDemand asked (serve c byNeed qs h).2 := by
  induction qs generalizing h with
  | nil => exact hinv
  | cons q qs ih =>
    obtain ⟨-, hinv', -⟩ := Conduct.answer_ends (K := onDemand c asked) Conduct.byNeed_walks hinv q
      (fun a ha => .inl (hqs a ⟨q, List.mem_cons_self .., ha⟩)) (inWorld_onDemand hinv)
    exact ih (fun a ⟨q', hq', ha⟩ => hqs a ⟨q', List.mem_cons_of_mem _ hq', ha⟩) hinv'

theorem onDemand_start (asked : String → Prop) (library : Library) : OnDemand asked (.start library) where
  jobs i job hi := by simp [Heap.job?, EngineState.start] at hi
  results i job v hi := by simp [EngineState.start] at hi
  frames k f hf := by simp [EngineState.start] at hf
  values a v hv := by cases hv
  modules a m hm := by cases hm
  journal later source a earlier heq := by simp [EngineState.start, Session.start] at heq

theorem consulted_needs {c : Config} {library : Library} {requests : List Request} {later earlier : List Event}
    {source : Source} {a : String}
    (hjournal : (serve c byNeed requests (.start library)).2.rest.outer.journal =
      later ++ .consulted source a :: earlier) (ha : ¬ Asked requests a) :
    ∃ importer name, Needs (serve c byNeed requests (.start library)).2.rest.outer.modules importer name a ∧
      .stored importer ∈ earlier := by
  have hinv := serve_onDemand (c := c) requests (fun _ => id) (onDemand_start (Asked requests) library)
  exact (hinv.journal later source a earlier hjournal).resolve_left ha

/-- A text that a run has loaded or fetched, and that nobody asked for, is needed by a module that has been read. -/
theorem touched_on_demand {c : Config} {library : Library} {requests : List Request} {a : String}
    (ha : ¬ Asked requests a) (hstart : ¬ library.Touched a)
    (hworlds : ∀ world, .change world ∈ requests → a ∉ world.fetched)
    (htouched : (serve c byNeed requests (.start library)).2.rest.outer.library.Touched a) :
    ∃ importer name, Needs (serve c byNeed requests (.start library)).2.rest.outer.modules importer name a := by
  rcases touched_was_consulted htouched with hbefore | ⟨world, hworld, hfetched⟩ | hconsulted
  · exact absurd hbefore hstart
  · exact absurd hfetched (hworlds world hworld)
  · obtain ⟨later, earlier, hjournal⟩ := List.append_of_mem hconsulted
    obtain ⟨importer, name, hneeds, -⟩ := consulted_needs hjournal ha
    exact ⟨importer, name, hneeds⟩

/-- Imports are loaded on demand. Whenever a run looks for a module that nobody asked for, in the library or in
its text, it is the target of an import of a module that has been read before. No later import and no
declaration of that module has the name of the import, and the module looks the name up at a place where no
parameter has it. -/
theorem loaded_on_demand {c : Config} {library : Library} {requests : List Request} {later earlier : List Event}
    {source : Source} {a : String}
    (hjournal : (serve c byNeed requests (.start library)).2.rest.outer.journal =
      later ++ .consulted source a :: earlier) (ha : ¬ Asked requests a) :
    ∃ m name, .stored m.address ∈ earlier ∧
      Table.find? (serve c byNeed requests (.start library)).2.rest.outer.modules m.address = some m ∧
      SaysText c (serve c byNeed requests (.start library)).2.rest.outer.library.cache.loaded m ∧
      m.ImportsLast name a ∧ m.LooksUp name := by
  obtain ⟨-, ⟨hlexical, -⟩, -⟩ := Conduct.serve_keeps (lexical_lasts c) Conduct.byNeed_walks requests
    ⟨lexical_start c library, rfl⟩
  obtain ⟨importer, name, ⟨m, hm, hlast, hlooks⟩, hstored⟩ := consulted_needs hjournal ha
  obtain ⟨rfl, hsays⟩ := hlexical.modules importer m hm
  exact ⟨m, name, hstored, hm, hsays, hlast, hlooks⟩

/-- A module with five imports, of which it needs one: one is overwritten by a later import, one is a parameter
where it is looked up, one is declared, and one is the name of a field. -/
def oneOfFive : Library :=
  let text := "a \"old\" b \"b\" a \"a\" c \"c\" d \"d\" c = 1 if true then (b => b.d)(a) else nil"
  ⟨⟨none, [], [("m", .text (Text.pointsOf text)), ("a", .text (Text.pointsOf "{d: 2}"))]⟩, .empty false,
    ⟨.empty, [], []⟩⟩

theorem loaded_on_demand_oneOfFive :
    let s := (serve ⟨Reading.ofText, 12⟩ byNeed [.render "m"] (.start oneOfFive)).2.rest.outer
    s.journal.filter (· matches .consulted .library _) = [.consulted .library "a", .consulted .library "m"] ∧
      ∃ later earlier, s.journal = later ++ .consulted .library "a" :: earlier ∧ .stored "m" ∈ earlier ∧
        ∃ m name, Table.find? s.modules m.address = some m ∧ m.ImportsLast name "a" ∧ m.LooksUp name := by
  have hjournal : (serve ⟨Reading.ofText, 12⟩ byNeed [.render "m"] (.start oneOfFive)).2.rest.outer.journal =
      [.valued "m", .left "m", .valued "a", .left "a", .entered "a", .stored "a", .consulted .grammar "a",
        .consulted .importReader "a"] ++ .consulted .library "a" :: [.demanded "a", .entered "m", .stored "m",
        .consulted .grammar "m", .consulted .importReader "m", .consulted .library "m", .demanded "m"] := by
    decide +kernel
  have hnot : ¬ Asked [.render "m"] "a" := by
    rintro ⟨q, hq, ha⟩
    rw [List.mem_singleton.mp hq] at ha
    exact absurd ha (by decide)
  obtain ⟨m, name, -, hm, -, hlast, hlooks⟩ := loaded_on_demand hjournal hnot
  exact ⟨by rw [hjournal]; rfl, _, _, hjournal, by decide, m, name, hm, hlast, hlooks⟩

end Engine

end LazyModules
