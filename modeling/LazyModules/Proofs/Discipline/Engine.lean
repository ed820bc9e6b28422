import LazyModules.Proofs.Discipline.Expressions
import LazyModules.Proofs.Engine.Steps

/-!
# The engine keeps a discipline

A conduct is a discipline that the engine keeps too, where it reads modules, builds their scopes, and winds
up their evaluation. An import is brought to its value by the same engine, so the argument goes round: what
keeps to the conduct within a module makes every module that imports it keep to it, as deep as imports nest.

**Results.**
* `evaluateWith_rule`: the value of a module, case by case, for any postcondition.
* `load_honours`, `evaluateBy_keeps`, `renderBy_keeps`: everything that the engine does keeps to a conduct,
  whichever way expressions are walked (`Walks`).
-/
namespace LazyModules.Engine

open Eval

/-- The state in which the body of a module is evaluated. -/
def opened (h : EngineState) (s : Session) (l : Library) (address : String) : EngineState :=
  Heap.setOuter h ((s.setLibrary l).enter address)

/-- A module that is about to be evaluated: it has no value, it has been read, and its evaluation has been
announced. -/
structure Opening (c : Config) (h : EngineState) (address : String) (m : Module) (s : Session) (l : Library) :
    Prop where
  unvalued : Table.find? h.rest.outer.values address = none
  parses : Parses c address (h.rest.outer.note (.demanded address)) (.ok m) s
  library : Library.Tells 0 s.library l

/-- A discipline that the engine keeps to. -/
structure Conduct (c : Config) extends Discipline Session where
  /-- the value of a module may be asked for -/
  ask : EngineState → String → Prop
  /-- an import that leads to a module which is not under evaluation -/
  ask_of_load : ∀ {h importer name target}, inv h → load h importer name target →
    target ∉ h.rest.outer.evaluating → ask h target
  /-- a module that has a value -/
  known : ∀ {h address v}, inv h → ask h address → Table.find? h.rest.outer.values address = some v →
    toOutlook.Ends h toOutlook.Value (.ok v, Heap.setOuter h (h.rest.outer.note (.demanded address)))
  /-- a module that cannot be read -/
  unread : ∀ {h address o s}, inv h → ask h address → Table.find? h.rest.outer.values address = none →
    Parses c address (h.rest.outer.note (.demanded address)) o s → (∀ m, o ≠ .ok m) → ∀ failed,
    inv (Heap.setOuter h (s.setFailed failed)) ∧ leads h o.ending (Heap.setOuter h (s.setFailed failed))
  opens : ∀ {h address m s l}, inv h → ask h address → Opening c h address m s l →
    inv (opened h s l address) ∧ ∀ {W W'}, toOutlook.Respects W W' →
      toOutlook.Keeps (opened h s l address) (fun h' scope => ∀ e, m.body = some e → visit h' e scope)
        (moduleScope W address m) (moduleScope W' address m)
  settles : ∀ {h address m s l r o s'}, inv h → ask h address → Opening c h address m s l →
    toOutlook.Ends (opened h s l address) toOutlook.Value r → Settles address r.2.rest.outer r.1 o s' →
    toOutlook.Ends h toOutlook.Value (o, Heap.setOuter r.2 s')
  /-- an import that closes a cycle -/
  cycle : ∀ {h importer name target}, inv h → load h importer name target → target ∈ h.rest.outer.evaluating →
    leads h (.error (.semantic (cycleError h.rest.outer.evaluating importer name target))) h
  /-- an error that is blamed on the program where its value is shown -/
  blames : ∀ {h h' e address t s}, inv h → inv h' → leads h (.error (.semantic e)) h' →
    Blames e address h'.rest.outer t s → inv (Heap.setOuter h' s) ∧ leads h (.error t) (Heap.setOuter h' s)

section

variable {c : Config} {W : Walker Session} {address : String} {h : EngineState}

theorem evaluateWith_known {v : Value} (hv : Table.find? h.rest.outer.values address = some v) :
    evaluateWith c W address h = (.ok v, Heap.setOuter h (h.rest.outer.note (.demanded address))) := by
  simp only [evaluateWith, note, session, modify, Session.note, bind, Computation.bind, hv]
  rfl

theorem evaluateWith_unknown (hv : Table.find? h.rest.outer.values address = none) :
    evaluateWith c W address h = Computation.bind ((parse c address).tryCatch (handleParseTrouble address))
      (evaluateModule W address) (Heap.setOuter h (h.rest.outer.note (.demanded address))) := by
  simp only [evaluateWith, note, session, modify, Session.note, bind, Computation.bind, hv]
  rfl

/-- An import closes a cycle or is evaluated. -/
theorem loadWith_eq (c : Config) (W : Walker Session) (importer name target : String) (h : EngineState) :
    loadWith c W importer name target h = (if h.rest.outer.evaluating.contains target then
        Computation.fail (.semantic (cycleError h.rest.outer.evaluating importer name target))
      else evaluateWith c W target : Action Value) h := rfl

end

/-- The value of a module. A module that has none is read and evaluated, by walkers that do the same. -/
theorem evaluateWith_rule {c : Config} (K : Discipline Session) {W W' : Walker Session} {h : EngineState}
    {address : String} {Q : Outcome Trouble Value × EngineState → Prop}
    (hknown : ∀ v, Table.find? h.rest.outer.values address = some v →
      Q (.ok v, Heap.setOuter h (h.rest.outer.note (.demanded address))))
    (hunread : Table.find? h.rest.outer.values address = none → ∀ o s failed,
      Parses c address (h.rest.outer.note (.demanded address)) o s → (∀ m, o ≠ .ok m) →
      ∀ o', o'.ending = o.ending → Q (o', Heap.setOuter h (s.setFailed failed)))
    (hopens : ∀ m s l, Opening c h address m s l → K.inv (opened h s l address) ∧
      K.Keeps (opened h s l address) K.Value (evaluateBody W address m) (evaluateBody W' address m))
    (hsettles : ∀ m s l r o s', Opening c h address m s l → K.Ends (opened h s l address) K.Value r →
      Settles address r.2.rest.outer r.1 o s' → Q (o, Heap.setOuter r.2 s')) :
    evaluateWith c W' address h = evaluateWith c W address h ∧ Q (evaluateWith c W address h) := by
  let h₁ : EngineState := Heap.setOuter h (h.rest.outer.note (.demanded address))
  cases hvalue : Table.find? h.rest.outer.values address with
  | some v =>
    have hevaluate (W : Walker Session) : evaluateWith c W address h = (.ok v, h₁) := evaluateWith_known hvalue
    rw [hevaluate W, hevaluate W']
    exact ⟨rfl, hknown v hvalue⟩
  | none =>
    obtain ⟨s, hs, hparses⟩ := parse_parses c address h₁
    have hevaluate (W : Walker Session) : evaluateWith c W address h =
        Computation.bind ((parse c address).tryCatch (handleParseTrouble address)) (evaluateModule W address) h₁ :=
      evaluateWith_unknown hvalue
    rw [hevaluate W, hevaluate W']
    simp only [Computation.bind, Computation.tryCatch]
    rcases hr : parse c address h₁ with ⟨o, h₂⟩
    rw [hr] at hs hparses
    obtain rfl : h₂ = Heap.setOuter h s := hs
    cases o with
    | ok m =>
      have hopening : Opening c h address m s (announced address s.library) :=
        ⟨hvalue, hparses, announced_tells address s.library⟩
      obtain ⟨hinv, hkeeps⟩ := hopens m s _ hopening
      obtain ⟨heq, hends⟩ := hkeeps hinv
      obtain ⟨o, s', hwind, hset⟩ := windUp_settles address (evaluateBody W address m
        (opened h s (announced address s.library) address))
      have hmodule (W : Walker Session) : evaluateModule W address m (Heap.setOuter h s) =
          windUp address (evaluateBody W address m (opened h s (announced address s.library) address)) :=
        evaluateModule_eq W address m _
      simp only [hmodule, heq, hwind, true_and]
      exact hsettles m s _ _ o s' hopening hends hset
    | exhausted =>
      have hnone (m : Module) : (.exhausted : Outcome Trouble Module) ≠ .ok m := fun hm => by cases hm
      exact ⟨rfl, hunread hvalue _ s s.failed hparses hnone .exhausted rfl⟩
    | error e =>
      have hnone (m : Module) : (.error e : Outcome Trouble Module) ≠ .ok m := fun hm => by cases hm
      cases e with
      | semantic e | accident e => exact ⟨rfl, hunread hvalue _ s s.failed hparses hnone (.error _) rfl⟩
      | reported phase =>
        obtain ⟨failed, hfailed⟩ := markFailed_eq s address
        have hq := hunread hvalue _ s failed hparses hnone (.error (.reported phase)) rfl
        rw [← hfailed] at hq
        exact ⟨rfl, hq⟩

namespace Conduct

variable {c : Config} {K : Conduct c} {W W' : Walker Session} {h : EngineState}

theorem evaluateBody_keeps (hW : K.Respects W W') {address : String} {m : Module}
    (hscope : K.Keeps h (fun h' scope => ∀ e, m.body = some e → K.visit h' e scope)
      (moduleScope W address m) (moduleScope W' address m)) :
    K.Keeps h K.Value (evaluateBody W address m) (evaluateBody W' address m) := by
  refine Discipline.Keeps.bind hscope fun h' scope _ hvisit => ?_
  split
  · exact Discipline.Keeps.pure trivial
  · rename_i e he
    exact hW.strict (hvisit e he)

theorem evaluateWith_keeps (hW : K.Respects W W') {address : String} (hask : K.inv h → K.ask h address) :
    K.Keeps h K.Value (evaluateWith c W address) (evaluateWith c W' address) := by
  intro hinv
  refine evaluateWith_rule K.toDiscipline (fun v => K.known hinv (hask hinv)) ?_ ?_ ?_
  · intro hvalue o s failed hparses ho o' ho'
    obtain ⟨hinv', hleads⟩ := K.unread hinv (hask hinv) hvalue hparses ho failed
    refine ⟨hinv', by rwa [ho'], fun v hv => ?_⟩
    obtain rfl : o' = .ok v := hv
    cases o with
    | ok m => exact absurd rfl (ho m)
    | error e | exhausted => cases ho'
  · intro m s l hopening
    obtain ⟨hinv', hscope⟩ := K.opens hinv (hask hinv) hopening
    exact ⟨hinv', evaluateBody_keeps hW (hscope hW)⟩
  · intro m s l r o s' hopening
    exact K.settles hinv (hask hinv) hopening

/-- An import keeps to the conduct: it closes a cycle, or its module may be asked for. -/
theorem loadWith_keeps (hW : K.Respects W W') : K.Honours (loadWith c W) (loadWith c W') := by
  intro h importer name target hwanted hinv
  rw [loadWith_eq c W, loadWith_eq c W']
  split
  · rename_i hmem
    exact ⟨rfl, .error hinv (K.cycle hinv hwanted (List.contains_iff_mem.mp hmem))⟩
  · rename_i hmem
    exact evaluateWith_keeps hW (K.ask_of_load · hwanted (hmem <| List.contains_iff_mem.mpr ·)) hinv

variable (K) in
/-- Two ways to walk expressions that do the same and keep to the conduct, if imports do. -/
def Walks (walk walk' : Walking) : Prop :=
  ∀ {load load'} depth, K.Honours load load' → K.Respects (walk load depth) (walk' load' depth)

theorem byNeed_walks : K.Walks byNeed byNeed :=
  fun depth hload => Discipline.walker_respects hload (Discipline.eval_keeps hload depth) depth

variable {walk walk' : Walking}

/-- Imports keep to the conduct through any number of nested modules. -/
theorem load_honours (hwalk : K.Walks walk walk') (nesting : Nat) :
    K.Honours (load c walk nesting) (load c walk' nesting) := by
  induction nesting with
  | zero => exact fun _ _ _ _ _ => Discipline.Keeps.exhaust
  | succ nesting ih => exact loadWith_keeps (hwalk c.depth ih)

theorem walker_respects (hwalk : K.Walks walk walk') : K.Respects (walker c walk) (walker c walk') :=
  hwalk c.depth (load_honours hwalk c.depth)

theorem evaluateBy_keeps (hwalk : K.Walks walk walk') {address : String} (hask : K.inv h → K.ask h address) :
    K.Keeps h K.Value (evaluateBy c walk address) (evaluateBy c walk' address) :=
  evaluateWith_keeps (walker_respects hwalk) hask

/-- A value that is shown keeps to the conduct, with what fails on the way. -/
theorem show_keeps (hwalk : K.Walks walk walk') (address : String) {v : Value} (hv : K.Value h v) :
    K.Keeps h (fun _ _ => True)
      ((displayWith (walker c walk).force c.depth v).tryCatch fun t =>
        match t with
        | .semantic e => blame e address
        | t => Computation.fail t)
      ((displayWith (walker c walk').force c.depth v).tryCatch fun t =>
        match t with
        | .semantic e => blame e address
        | t => Computation.fail t) := by
  intro hinv
  refine Discipline.Keeps.tryCatch (Discipline.displayWith_keeps (walker_respects hwalk).force c.depth hv)
    (fun h' t hinv' hleads => ⟨rfl, ?_⟩) hinv
  cases t with
  | semantic e =>
    obtain ⟨t, s, heq, hblames⟩ := blame_blames (α := String) e address h'
    obtain ⟨hinv'', hleads'⟩ := K.blames hinv hinv' hleads hblames
    simp only [heq]
    exact .error hinv'' hleads'
  | reported phase | accident a => exact .error hinv' hleads

theorem renderBy_keeps (hwalk : K.Walks walk walk') {address : String} (hask : K.inv h → K.ask h address) :
    K.Keeps h (fun _ _ => True) (renderBy c walk address) (renderBy c walk' address) :=
  Discipline.Keeps.bind (evaluateBy_keeps hwalk hask) fun _ _ _ hv => show_keeps hwalk address hv

end Conduct

end LazyModules.Engine
