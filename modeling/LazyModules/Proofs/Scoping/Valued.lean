import LazyModules.Proofs.Engine.Entries
import LazyModules.Proofs.Engine.Requests
import LazyModules.Proofs.Scoping.Place

/-!
# Names have values

A module declares all its names before it gives them values, so for a while a frame binds names to nothing. No
expression is evaluated in the meantime, because the values of declarations are delayed. Whenever an expression is
evaluated, every name in every frame stands for a value or for something that is still to be evaluated. A name is
never found without either, and the objection to its use is never raised.

A detour does something else in place of an evaluation. A run evaluates an expression in a state if a detour there
alone makes the run come out otherwise.

**Results.** `valued_layout`: the frame of a module has its values when it is laid out. `serve_valued`: a detour that
waits for a name without a value is never taken. `lookup_finds_value`: no name is found without its value.
-/
namespace LazyModules

/-- Every name that a frame binds has a value, or something that brings it to one. -/
def Frame.Valued (f : Frame Slot) : Prop := ∀ name, Table.find? f name ≠ some none

def Frames.Valued (fs : Frames Slot) : Prop := ∀ (k : Nat) f, fs[k]? = some f → Frame.Valued f

namespace Frame

theorem valued_nil : Valued [] := fun _ h => by cases h

theorem Valued.insert {f : Frame Slot} (h : Valued f) (name : String) (x : Slot) :
    Valued (Table.insert f name (some x)) := by
  intro n hn
  rw [Table.find?_insert] at hn
  split at hn
  · cases hn
  · exact h n hn

theorem Valued.insertAll {f : Frame Slot} (h : Valued f) (bindings : List (String × Slot)) :
    Valued (Table.insertAll f (bindings.map fun p => (p.1, some p.2))) := by
  induction bindings generalizing f with
  | nil => exact h
  | cons p bindings ih => exact ih (h.insert p.1 p.2)

/-- A module that is laid out has all its values, also if names are declared or imported twice. -/
theorem valued_layout (g : Ground) (m : Module) (first : Nat) : Valued (g.layout m first).frame := by
  intro name hname
  have hmade := (g.fits_layout m first).made name id
  rw [hname] at hmade
  cases hentry : Table.find? m.entries name with
  | none =>
    rw [hentry] at hmade
    cases hmade
  | some entry =>
    rw [hentry] at hmade
    cases hmade with
    | some hmade => cases hmade

end Frame

namespace Frames

theorem valued_empty : Valued #[] := fun _ _ h => by cases h

theorem Valued.push {fs : Frames Slot} (h : Valued fs) {f : Frame Slot} (hf : f.Valued) : Valued (fs.push f) := by
  intro k g hg
  rw [Array.getElem?_push] at hg
  split at hg
  · obtain rfl := Option.some.inj hg
    exact hf
  · exact h k g hg

theorem Valued.frame {fs : Frames Slot} (h : Valued fs) (i : Nat) : Frame.Valued (fs.frame i) := by
  unfold Frames.frame
  cases hi : fs[i]? with
  | none => exact Frame.valued_nil
  | some f => exact h i f hi

/-- Whatever name is looked up, it is not found without a value. -/
theorem Valued.lookup?_ne {fs : Frames Slot} (h : Valued fs) (s : Scope) (name : String) :
    s.lookup? fs name ≠ some none := by
  rw [Scope.lookup?]
  induction s.frames with
  | nil => exact fun hnone => by cases hnone
  | cons i is ih =>
    have hframe := h.frame i name
    unfold Scope.lookupIn
    cases hi : Table.find? (fs.frame i) name with
    | none => exact ih
    | some b =>
      rw [hi] at hframe
      exact hframe

/-- Every name of a scope has a value. -/
theorem Valued.exists_slot {fs : Frames Slot} (h : Valued fs) {s : Scope} {name : String} (hname : name ∈ s.names fs) :
    ∃ x, s.lookup? fs name = some (some x) := by
  cases hlookup : s.lookup? fs name with
  | none => exact absurd hname (Scope.lookup?_eq_none_iff.mp hlookup)
  | some b =>
    cases b with
    | none => exact absurd hlookup (h.lookup?_ne s name)
    | some x => exact ⟨x, rfl⟩

end Frames

namespace Engine

open Eval

/-! ## Detours -/

/-- What is done in place of an evaluation, if anything else is done. -/
abbrev Detour := Expr → Scope → EngineState → Option (Outcome Trouble Value × EngineState)

/-- Goes on with an expression unless a detour is taken. -/
def divert (detour : Detour) (e : Expr) (scope : Scope) (go : Action Value) : Action Value :=
  fun h => (detour e scope h).getD (go h)

def divertedEval (detour : Detour) (load : Loader Session) : (depth : Nat) → Evaluator Session
  | 0, _, _ => Computation.exhaust
  | depth + 1, e, scope =>
    divert detour e scope (step (Eval.walker load depth (divertedEval detour load depth)) e scope)

/-- Names and imports are bound as ever. -/
def diverted (detour : Detour) : Walking :=
  fun load depth => Eval.walker load depth (divertedEval detour load depth)

/-- A run that starts with a library evaluates an expression in a scope and a state: a detour at this place alone makes
it come out otherwise. -/
def Evaluated (c : Config) (library : Library) (requests : List Request) (e : Expr) (scope : Scope)
    (h : EngineState) : Prop :=
  ∃ detour : Detour, (∀ e' scope' h', detour e' scope' h' ≠ none → e' = e ∧ scope' = scope ∧ h' = h) ∧
    serve c (diverted detour) requests (.start library) ≠ serve c byNeed requests (.start library)

/-! ## Evaluation leaves no name without a value -/

/-- The discipline that all frames have their values whenever an expression is evaluated. -/
def valued : Discipline Session where
  inv h := h.rest.frames.Valued
  leads _ _ _ := True
  visit _ _ _ := True
  refl _ := trivial
  trans _ _ := trivial
  visit_mono _ := id
  cell_mono _ := id
  part _ _ := trivial
  found _ _ _ := Slot.holds_of_forall (fun _ _ => trivial) (fun _ => trivial) _
  freshId hinv := ⟨hinv, trivial, fun _ _ => trivial⟩
  alloc hinv _ := ⟨hinv, trivial, fun _ _ => trivial⟩
  enter hinv _ _ _ := by
    rw [enter_eq]
    exact ⟨hinv.push (Frame.valued_nil.insertAll _), trivial, fun _ _ => trivial⟩
  done _ _ _ := Value.holds_of_forall (fun _ _ => trivial) (fun _ => trivial) _
  run {h i job} hinv _ hi := by
    refine ⟨hinv, ?_, fun r hends => ⟨hends.inv, trivial, fun v _ => ?_⟩⟩
    · cases job <;> trivial
    · exact Value.holds_of_forall (fun _ _ => trivial) (fun _ => trivial) v
  exhausted _ := trivial
  accident _ _ := trivial
  objection _ _ _ := trivial
  undefined _ _ _ := trivial
  circular _ _ := trivial
  circularName _ _ _ := trivial

theorem valued_value (h : EngineState) (v : Value) : valued.Value h v :=
  Value.holds_of_forall (fun _ _ => trivial) (fun _ => trivial) v

/-- A detour that is not taken while all frames have their values. -/
def Detour.Spares (detour : Detour) : Prop :=
  ∀ e scope (h : EngineState), h.rest.frames.Valued → detour e scope h = none

section

variable {c : Config} {detour : Detour} {h : EngineState} {W W' : Walker Session}

theorem divertedEval_keeps (hspares : detour.Spares) {load load' : Loader Session} (hload : valued.Honours load load')
    (depth : Nat) : valued.Trusts (Eval.eval load depth) (divertedEval detour load' depth) := by
  induction depth with
  | zero => exact fun _ => Discipline.Keeps.exhaust
  | succ depth ih =>
    intro h e scope hvisit hinv
    have hstep (go : Action Value) : divert detour e scope go h = go h := by
      rw [divert, hspares e scope h hinv, Option.getD_none]
    rw [divertedEval, hstep]
    exact Discipline.step_keeps (Discipline.walker_respects hload ih depth) hvisit hinv

theorem diverted_respects (hspares : detour.Spares) {load load' : Loader Session} (hload : valued.Honours load load')
    (depth : Nat) : valued.Respects (byNeed load depth) (diverted detour load' depth) :=
  Discipline.walker_respects hload (divertedEval_keeps hspares hload depth) depth

/-- The scope of a module is used when it has its values, whatever went on before. -/
theorem moduleScope_valued (hW : W.delay = Eval.delay) (hW' : W'.delay = Eval.delay) (address : String) (m : Module) :
    valued.Keeps h (fun _ _ => True) (moduleScope W address m) (moduleScope W' address m) := by
  intro hinv
  -- the frame lacks values on the way, but delaying a declaration does not look at frames
  have hlaid {W : Walker Session} (hW : W.delay = Eval.delay) : moduleScope W address m h =
      (.ok (ground h address).scope, laid h ((ground h address).layout m h.rest.nextId)) :=
    moduleScope_eq fun before d after _ => by rw [hW]
  rw [hlaid hW, hlaid hW']
  have hframe := Frame.valued_layout (ground h address) m h.rest.nextId
  exact ⟨rfl, hinv.push hframe, trivial, fun _ _ => trivial⟩

theorem evaluateBody_valued (hW : valued.Respects W W') (hW' : W'.delay = Eval.delay) (address : String) (m : Module) :
    valued.Keeps h valued.Value (evaluateBody W address m) (evaluateBody W' address m) := by
  refine Discipline.Keeps.bind (moduleScope_valued hW.delays hW' address m) fun h' scope _ _ => ?_
  split
  · exact Discipline.Keeps.pure trivial
  · exact hW.strict trivial

theorem evaluateWith_valued (hW : valued.Respects W W') (hW' : W'.delay = Eval.delay) (address : String) :
    valued.Keeps h valued.Value (evaluateWith c W address) (evaluateWith c W' address) := by
  intro hinv
  refine evaluateWith_rule valued ?_ ?_ ?_ ?_
  · exact fun v _ => ⟨hinv, trivial, fun v _ => valued_value _ v⟩
  · exact fun _ o s failed _ _ o' _ => ⟨hinv, trivial, fun v _ => valued_value _ v⟩
  · exact fun m s l _ => ⟨hinv, evaluateBody_valued hW hW' address m⟩
  · exact fun m s l r o s' _ hends _ => ⟨hends.inv, trivial, fun v _ => valued_value _ v⟩

theorem loadWith_valued (hW : valued.Respects W W') (hW' : W'.delay = Eval.delay) :
    valued.Honours (loadWith c W) (loadWith c W') := by
  intro h importer name target _ hinv
  rw [loadWith_eq c W, loadWith_eq c W']
  split
  · exact ⟨rfl, .error hinv trivial⟩
  · exact evaluateWith_valued hW hW' target hinv

/-- Imports find and leave all frames with their values, through any number of nested modules. -/
theorem load_valued (hspares : detour.Spares) (nesting : Nat) :
    valued.Honours (load c byNeed nesting) (load c (diverted detour) nesting) := by
  induction nesting with
  | zero => exact fun _ _ _ _ _ => Discipline.Keeps.exhaust
  | succ nesting ih => exact loadWith_valued (diverted_respects hspares ih c.depth) rfl

theorem walker_valued (hspares : detour.Spares) : valued.Respects (walker c byNeed) (walker c (diverted detour)) :=
  diverted_respects hspares (load_valued hspares c.depth) c.depth

theorem evaluateBy_valued (hspares : detour.Spares) (address : String) :
    valued.Keeps h valued.Value (evaluateBy c byNeed address) (evaluateBy c (diverted detour) address) :=
  evaluateWith_valued (walker_valued hspares) rfl address

theorem renderBy_valued (hspares : detour.Spares) (address : String) :
    valued.Keeps h (fun _ _ => True) (renderBy c byNeed address) (renderBy c (diverted detour) address) := by
  refine Discipline.Keeps.bind (evaluateBy_valued hspares address) fun h' v _ hv => ?_
  refine Discipline.Keeps.tryCatch (Discipline.displayWith_keeps (walker_valued hspares).force c.depth hv)
    fun h'' t hinv _ => ⟨rfl, ?_⟩
  cases t with
  | semantic e =>
    obtain ⟨t, s, heq, -⟩ := blame_blames (α := String) e address h''
    simp only [heq]
    exact .error hinv trivial
  | reported phase | accident a => exact .error hinv trivial

theorem answer_valued (hspares : detour.Spares) (hinv : h.rest.frames.Valued) (q : Request) :
    answer c (diverted detour) h q = answer c byNeed h q ∧ (answer c byNeed h q).2.rest.frames.Valued := by
  cases q with
  | evaluate address =>
    obtain ⟨heq, hends⟩ := evaluateBy_valued (c := c) hspares address hinv
    simp only [answer, heq]
    exact ⟨trivial, hends.inv⟩
  | render address =>
    obtain ⟨heq, hends⟩ := renderBy_valued (c := c) hspares address hinv
    simp only [answer, heq]
    exact ⟨trivial, hends.inv⟩
  | change world => exact ⟨rfl, hinv⟩

/-- A detour that is not taken while all frames have their values is never taken. -/
theorem serve_valued (hspares : detour.Spares) (requests : List Request) (hinv : h.rest.frames.Valued) :
    serve c (diverted detour) requests h = serve c byNeed requests h ∧
      (serve c byNeed requests h).2.rest.frames.Valued := by
  induction requests generalizing h with
  | nil => exact ⟨rfl, hinv⟩
  | cons q requests ih =>
    obtain ⟨heq, hinv'⟩ := answer_valued (c := c) hspares hinv q
    obtain ⟨heq', hinv''⟩ := ih hinv'
    simp only [serve, heq, heq']
    exact ⟨trivial, hinv''⟩

end

/-- All frames have their values whenever an expression is evaluated. -/
theorem valued_of_evaluated {c : Config} {library : Library} {requests : List Request} {e : Expr} {scope : Scope}
    {h : EngineState} (hevaluated : Evaluated c library requests e scope h) : h.rest.frames.Valued := by
  obtain ⟨detour, hplace, htaken⟩ := hevaluated
  by_contra hlacks
  -- a detour for this state alone is then not taken anywhere
  refine htaken (serve_valued (fun e' scope' h' hvalued => ?_) requests Frames.valued_empty).1
  by_contra hdetour
  obtain ⟨-, -, rfl⟩ := hplace e' scope' h' hdetour
  exact hlacks hvalued

/-- A name that is not found without its value is not objected to for that. -/
theorem find_ne_tooEarly {scope : Scope} {name : String} {h : EngineState}
    (hlookup : scope.lookup? h.rest.frames name ≠ some none) (start : Nat) : (find scope name start h).1 ≠
      .error (.at scope.address (.complaint ((Objection.tooEarly name).complaint start))) := by
  intro hcomplaint
  simp only [find, Eval.frames, bind, Computation.bind] at hcomplaint
  cases hfound : scope.lookup? h.rest.frames name with
  | none =>
    rw [hfound] at hcomplaint
    cases hcomplaint
  | some b =>
    cases b with
    | none => exact hlookup hfound
    | some x =>
      rw [hfound] at hcomplaint
      cases hcomplaint

/-- The body of a module is evaluated in its scope when the value of the module is asked for. -/
theorem evaluated_body {c : Config} {library : Library} {address : String} {m : Module} {e : Expr} {h₁ : EngineState}
    (hdepth : 0 < c.depth)
    (hparse : parse c address (Heap.setOuter (EngineState.start library)
      ((Session.start library).note (.demanded address))) = (.ok m, h₁)) (hbody : m.body = some e) :
    let h := opened h₁ h₁.rest.outer (announced address h₁.rest.outer.library) address
    Evaluated c library [.evaluate address] e (ground h address).scope
      (laid h ((ground h address).layout m h.rest.nextId)) := by
  classical
  intro h
  obtain ⟨depth, hdepth⟩ := Nat.exists_eq_add_one_of_ne_zero (Nat.ne_of_gt hdepth)
  let scope := (ground h address).scope
  let h' := laid h ((ground h address).layout m h.rest.nextId)
  obtain ⟨alarm, halarm⟩ := exists_alarm (serve c byNeed [.evaluate address] (.start library)).1
  let detour : Detour := fun e' scope' h'' =>
    if e' = e ∧ scope' = scope ∧ h'' = h' then some (.error (.accident alarm), h'') else none
  refine ⟨detour, fun e' scope' h'' htaken => ?_, fun heq => halarm ?_⟩
  · by_contra hplace
    exact htaken (if_neg hplace)
  have hvisit : evaluateBody (walker c (diverted detour)) address m h = (.error (.accident alarm), h') := by
    have hscope : moduleScope (walker c (diverted detour)) address m h = (.ok scope, h') :=
      moduleScope_eq fun before d after _ => rfl
    simp only [evaluateBody, bind, Computation.bind, hscope, hbody]
    have htaken : detour e scope h' = some (.error (.accident alarm), h') := if_pos ⟨rfl, rfl, rfl⟩
    change divertedEval detour _ c.depth e scope h' = _
    rw [hdepth, divertedEval, divert, htaken, Option.getD_some]
  rw [← heq]
  change [(evaluateBy c (diverted detour) address (EngineState.start library)).1.ending] = _
  rw [evaluateBy_start hparse, hvisit]
  rfl

/-- No name is found without its value. Whenever an expression is evaluated, every name of every scope has one. What is
done where a name is found without its value does not matter, because that never happens. -/
theorem lookup_finds_value (c : Config) (library : Library) (requests : List Request) :
    (∀ e scope h, Evaluated c library requests e scope h →
      (∀ (s : Scope) (name : String), name ∈ s.names h.rest.frames →
        ∃ x : Slot, s.lookup? h.rest.frames name = some (some x)) ∧
      ∀ name start, e = .lookup name start → scope.lookup? h.rest.frames name ≠ some none ∧
        (find scope name start h).1 ≠
          .error (.at scope.address (.complaint ((Objection.tooEarly name).complaint start)))) ∧
    ∀ detour : Detour,
      (∀ e scope h, detour e scope h ≠ none →
        ∃ name start, e = .lookup name start ∧ scope.lookup? h.rest.frames name = some none) →
      serve c (diverted detour) requests (.start library) = serve c byNeed requests (.start library) := by
  refine ⟨fun e scope h hevaluated => ?_, fun detour hplace => ?_⟩
  · have hvalued := valued_of_evaluated hevaluated
    refine ⟨fun s name => hvalued.exists_slot, fun name start _ => ⟨hvalued.lookup?_ne scope name, ?_⟩⟩
    exact find_ne_tooEarly (hvalued.lookup?_ne scope name) start
  · have hspares : detour.Spares := by
      intro e scope h hvalued
      by_contra htaken
      obtain ⟨name, start, -, hlacks⟩ := hplace e scope h htaken
      exact hvalued.lookup?_ne scope name hlacks
    exact (serve_valued hspares requests Frames.valued_empty).1

/-- A module that imports itself under a name that it declares twice, the second time by the name itself. -/
theorem lookup_finds_value_cyclic :
    let library : Library :=
      ⟨⟨none, [], [("m", .text (Text.pointsOf "x \"m\" x = 1 x = x x"))]⟩, .empty false, ⟨.empty, [], []⟩⟩
    ∃ scope h, Evaluated ⟨Reading.ofText, 2⟩ library [.evaluate "m"] (.lookup "x" 18) scope h ∧
      scope.names h.rest.frames = ["x"] ∧ (∃ x : Slot, scope.lookup? h.rest.frames "x" = some (some x)) ∧
      (find scope "x" 18 h).1 ≠ .error (.at scope.address (.complaint ((Objection.tooEarly "x").complaint 18))) := by
  intro library
  let m : Module :=
    ⟨"m", [("x", "m")], [⟨"x", .literal (.int 1) 10⟩, ⟨"x", .lookup "x" 16⟩], some (.lookup "x" 18)⟩
  let s : Session := ⟨library, [("m", m)], [], [], [], [.stored "m", .consulted .grammar "m",
    .consulted .importReader "m", .consulted .library "m", .demanded "m"]⟩
  have hparse : parse ⟨Reading.ofText, 2⟩ "m" (Heap.setOuter (EngineState.start library)
      ((Session.start library).note (.demanded "m"))) = (.ok m, ⟨#[], ⟨#[], 0, s⟩⟩) := rfl
  have hevaluated := evaluated_body Nat.two_pos hparse rfl
  obtain ⟨hvalues, hlookup⟩ := (lookup_finds_value _ _ _).1 _ _ _ hevaluated
  exact ⟨_, _, hevaluated, rfl, hvalues _ _ (by decide), (hlookup _ _ rfl).2⟩

end Engine

end LazyModules
