import LazyModules.Proofs.Discipline.Engine

/-!
# Runs of an engine

An engine serves one request after the other, and the world may change in between. A run visits an
expression if a trap that is set for this visit alone is sprung: with the trap, the run comes out otherwise.

**Results.** `serve_keeps`: what a conduct says holds from the start to the end of a run. `visit_of_visited`:
every visit of a run keeps to the conduct.
-/
namespace LazyModules.Engine

open Eval

/-- What an engine may be asked for, or what may happen before it is asked again. -/
inductive Request where
  | evaluate (address : String)
  | render (address : String)
  /-- files and answers of the network are others from now on -/
  | change (world : World)

def Request.address? : Request → Option String
  | .evaluate address | .render address => some address
  | .change _ => none

def inWorld (world : World) (h : EngineState) : EngineState :=
  Heap.setOuter h (h.rest.outer.setLibrary { h.rest.outer.library with world := world })

/-- Answers a request. What is told of the answer is how it ended. -/
def answer (c : Config) (walk : Walking) (h : EngineState) : Request → Outcome Trouble Unit × EngineState
  | .evaluate address => ((evaluateBy c walk address h).1.ending, (evaluateBy c walk address h).2)
  | .render address => ((renderBy c walk address h).1.ending, (renderBy c walk address h).2)
  | .change world => (.ok (), inWorld world h)

/-- Answers requests one after the other. -/
def serve (c : Config) (walk : Walking) : List Request → EngineState → List (Outcome Trouble Unit) × EngineState
  | [], h => ([], h)
  | q :: qs, h =>
    let r := answer c walk h q
    let rest := serve c walk qs r.2
    (r.1 :: rest.1, rest.2)

/-! ## Traps -/

/-- The visits for which a trap is set. -/
abbrev Trap := Expr → Scope → EngineState → Bool

/-- Goes on with an expression unless a trap is set for it, which ends everything by an accident. -/
def guarded {α : Type} (trap : Trap) (alarm : Accident) (e : Expr) (scope : Scope) (go : Action α) : Action α :=
  fun h => if trap e scope h then (.error (.accident alarm), h) else go h

/-- The walker by need, with a trap wherever it is given an expression and a scope. -/
def trappedWalker (trap : Trap) (alarm : Accident) (load : Loader Session) (depth : Nat)
    (ev : Evaluator Session) : Walker Session :=
  { Eval.walker load depth ev with delay := fun scope e => guarded trap alarm e scope (delay scope e) }

def trappedEval (trap : Trap) (alarm : Accident) (load : Loader Session) : (depth : Nat) → Evaluator Session
  | 0, _, _ => Computation.exhaust
  | depth + 1, e, scope => guarded trap alarm e scope
      (step (trappedWalker trap alarm load depth (trappedEval trap alarm load depth)) e scope)

def trapped (trap : Trap) (alarm : Accident) : Walking :=
  fun load depth => trappedWalker trap alarm load depth (trappedEval trap alarm load depth)

/-- A run that starts with a library visits an expression in a scope and a state. -/
def Visited (c : Config) (library : Library) (requests : List Request) (e : Expr) (scope : Scope)
    (h : EngineState) : Prop :=
  ∃ trap alarm, (∀ e' scope' h', trap e' scope' h' = true → e' = e ∧ scope' = scope ∧ h' = h) ∧
    serve c (trapped trap alarm) requests (.start library) ≠ serve c byNeed requests (.start library)

/-- There is an alarm that a run does not end with by itself. -/
theorem exists_alarm (told : List (Outcome Trouble Unit)) : ∃ alarm : Accident, told ≠ [.error (.accident alarm)] := by
  by_contra hall
  push Not at hall
  cases (hall .nulInPath).symm.trans (hall .notText)

/-- The first module that is asked for is read, opened and evaluated. -/
theorem evaluateBy_start {c : Config} {library : Library} {address : String} {m : Module} {h₁ : EngineState}
    (hparse : parse c address (Heap.setOuter (EngineState.start library)
      ((Session.start library).note (.demanded address))) = (.ok m, h₁)) (walk : Walking) :
    evaluateBy c walk address (EngineState.start library) = windUp address (evaluateBody (walker c walk) address m
      (opened h₁ h₁.rest.outer (announced address h₁.rest.outer.library) address)) := by
  change Computation.bind ((parse c address).tryCatch (handleParseTrouble address))
    (evaluateModule (walker c walk) address) (Heap.setOuter (EngineState.start library)
      ((Session.start library).note (.demanded address))) = _
  simp only [Computation.bind, Computation.tryCatch, hparse]
  exact evaluateModule_eq ..

/-- A trap for what is at an offset. -/
def trapAt (start : Nat) (there : Trap) : Trap := fun e scope h => e.start == start && there e scope h

section Reaching

variable {trap : Trap} {alarm : Accident} {load : Loader Session} {depth : Nat} {scope : Scope} {h h' : EngineState}

theorem trappedEval_call {fn : Expr} {args : List Expr} {start : Nat} {v : Value}
    (htrap : trap (.call fn args start) scope h = false)
    (hfn : trappedEval trap alarm load depth fn scope h = (.ok v, h')) :
    trappedEval trap alarm load (depth + 1) (.call fn args start) scope h =
      applyCall (trappedWalker trap alarm load depth (trappedEval trap alarm load depth)) scope fn args start v h' := by
  rw [trappedEval, guarded, if_neg (by simp [htrap])]
  change Computation.bind (trappedEval trap alarm load depth fn scope) _ h = _
  rw [Computation.bind, hfn]

/-- An expression that the body of a module comes down to is visited when the value of the module is asked for. -/
theorem visited_of_body {c : Config} {library : Library} {address : String} {m : Module} {e e₀ : Expr}
    {h₁ : EngineState} {d : Nat}
    (hparse : parse c address (Heap.setOuter (EngineState.start library)
      ((Session.start library).note (.demanded address))) = (.ok m, h₁)) (hbody : m.body = some e₀)
    (hreach : ∀ there alarm load, ∃ scope₀ h₀,
      moduleScope (trapped (trapAt e.start there) alarm load c.depth) address m
        (opened h₁ h₁.rest.outer (announced address h₁.rest.outer.library) address) = (.ok scope₀, h₀) ∧
      trappedEval (trapAt e.start there) alarm load c.depth e₀ scope₀ h₀ =
        trappedEval (trapAt e.start there) alarm load (d + 1) e scope h) :
    Visited c library [.evaluate address] e scope h := by
  classical
  obtain ⟨alarm, halarm⟩ := exists_alarm (serve c byNeed [.evaluate address] (.start library)).1
  let there : Trap := fun e' scope' h' => decide (e' = e ∧ scope' = scope ∧ h' = h)
  let trap := trapAt e.start there
  have hthere : trap e scope h = true := by simp [trap, trapAt, there]
  refine ⟨trap, alarm, fun e' scope' h' htrap => ?_, fun heq => halarm ?_⟩
  · exact of_decide_eq_true (Bool.and_eq_true_iff.mp htrap).2
  obtain ⟨scope₀, h₀, hscope, hvisit⟩ := hreach there alarm (Engine.load c (trapped trap alarm) c.depth)
  have hsprung : evaluateBody (walker c (trapped trap alarm)) address m
      (opened h₁ h₁.rest.outer (announced address h₁.rest.outer.library) address) =
        (.error (.accident alarm), h) := by
    simp only [evaluateBody, bind, Computation.bind, walker, trap, hscope, hbody]
    refine hvisit.trans ?_
    rw [trappedEval, guarded, if_pos hthere]
  rw [← heq]
  change [(evaluateBy c (trapped trap alarm) address (EngineState.start library)).1.ending] = _
  rw [evaluateBy_start hparse, hsprung]
  rfl

end Reaching

/-! ## Keeping to a conduct -/

namespace Conduct

variable {c : Config} {K : Conduct c} {h : EngineState} {trap : Trap} {alarm : Accident}

variable (K) in
/-- A trap that no visit springs that keeps to the conduct. -/
def Spares (trap : Trap) : Prop := ∀ {e scope h}, K.inv h → K.visit h e scope → trap e scope h = false

theorem guarded_keeps {α : Type} {V : EngineState → α → Prop} {go go' : Action α} (htrap : K.Spares trap)
    {e : Expr} {scope : Scope} (hvisit : K.visit h e scope) (hgo : K.Keeps h V go go') :
    K.Keeps h V go (guarded trap alarm e scope go') := by
  intro hinv
  have hspared : guarded trap alarm e scope go' h = go' h := by
    rw [guarded, htrap hinv hvisit]
    rfl
  rw [hspared]
  exact hgo hinv

theorem trappedWalker_respects (htrap : K.Spares trap) {load load' : Loader Session} {ev ev' : Evaluator Session}
    (hload : K.Honours load load') (hev : K.Trusts ev ev') (depth : Nat) :
    K.Respects (Eval.walker load depth ev) (trappedWalker trap alarm load' depth ev') :=
  { Discipline.walker_respects hload hev depth with
    delay := fun hvisit => guarded_keeps htrap hvisit (Discipline.delay_keeps hvisit) }

theorem trappedEval_keeps (htrap : K.Spares trap) {load load' : Loader Session} (hload : K.Honours load load')
    (depth : Nat) : K.Trusts (Eval.eval load depth) (trappedEval trap alarm load' depth) := by
  induction depth with
  | zero => exact fun _ => Discipline.Keeps.exhaust
  | succ depth ih =>
    exact fun hvisit => guarded_keeps htrap hvisit
      (Discipline.step_keeps (trappedWalker_respects htrap hload ih depth) hvisit)

theorem trapped_walks (htrap : K.Spares trap) : K.Walks byNeed (trapped trap alarm) :=
  fun depth hload => trappedWalker_respects htrap hload (trappedEval_keeps htrap hload depth) depth

/-- A request keeps to the conduct if its module may be asked for, and if the world does not matter. -/
theorem answer_ends {walk walk' : Walking} (hwalk : K.Walks walk walk') (hinv : K.inv h) (q : Request)
    (hask : ∀ address, q.address? = some address → K.ask h address)
    (hchange : ∀ world, K.inv (inWorld world h) ∧ K.leads h (.ok ()) (inWorld world h)) :
    answer c walk' h q = answer c walk h q ∧ K.inv (answer c walk h q).2 ∧
      K.leads h (answer c walk h q).1 (answer c walk h q).2 := by
  cases q with
  | evaluate address =>
    obtain ⟨heq, hends⟩ := evaluateBy_keeps hwalk (fun _ => hask address rfl) hinv
    simp only [answer, heq]
    exact ⟨trivial, hends.inv, hends.leads⟩
  | render address =>
    obtain ⟨heq, hends⟩ := renderBy_keeps hwalk (fun _ => hask address rfl) hinv
    simp only [answer, heq]
    exact ⟨trivial, hends.inv, hends.leads⟩
  | change world => exact ⟨rfl, hchange world⟩

variable (K) in
/-- A conduct that holds of runs: any module may be asked for if none is under evaluation, what is under
evaluation is so again at the end, and the world does not matter. -/
structure Lasts : Prop where
  ask : ∀ {h} address, K.inv h → h.rest.outer.evaluating = [] → K.ask h address
  evaluating : ∀ {h o h'}, K.leads h o h' → h'.rest.outer.evaluating = h.rest.outer.evaluating
  change : ∀ {h} world, K.inv h → K.inv (inWorld world h) ∧ K.leads h (.ok ()) (inWorld world h)

variable (K) in
/-- A state between requests. -/
def Idle (h : EngineState) : Prop := K.inv h ∧ h.rest.outer.evaluating = []

theorem answer_keeps (hlasts : K.Lasts) {walk walk' : Walking} (hwalk : K.Walks walk walk') (hidle : K.Idle h)
    (q : Request) : answer c walk' h q = answer c walk h q ∧ K.Idle (answer c walk h q).2 ∧
      K.leads h (answer c walk h q).1 (answer c walk h q).2 := by
  obtain ⟨hinv, hnone⟩ := hidle
  obtain ⟨heq, hinv', hleads⟩ := answer_ends hwalk hinv q (fun address _ => hlasts.ask address hinv hnone)
    fun world => hlasts.change world hinv
  exact ⟨heq, ⟨hinv', (hlasts.evaluating hleads).trans hnone⟩, hleads⟩

/-- A run from a state between requests ends in one, where it may lead if nothing fails. -/
theorem serve_keeps (hlasts : K.Lasts) {walk walk' : Walking} (hwalk : K.Walks walk walk')
    (qs : List Request) (hidle : K.Idle h) :
    serve c walk' qs h = serve c walk qs h ∧ K.Idle (serve c walk qs h).2 ∧
      ((∀ o ∈ (serve c walk qs h).1, o = .ok ()) → K.leads h (.ok ()) (serve c walk qs h).2) := by
  induction qs generalizing h with
  | nil => exact ⟨rfl, hidle, fun _ => K.refl hidle.1⟩
  | cons q qs ih =>
    obtain ⟨heq, hidle', hleads⟩ := answer_keeps hlasts hwalk hidle q
    obtain ⟨heq', hidle'', hleads'⟩ := ih hidle'
    simp only [serve, heq, heq']
    refine ⟨trivial, hidle'', fun hok => ?_⟩
    rw [hok _ (List.mem_cons_self ..)] at hleads
    exact K.trans hleads (hleads' fun o ho => hok o (List.mem_cons_of_mem _ ho))

/-- What is visited in a run may be visited. A trap that is set for a visit that may not happen is not
sprung. -/
theorem visit_of_visited (hlasts : K.Lasts) {library : Library} (hstart : K.inv (EngineState.start library))
    {requests : List Request} {e : Expr} {scope : Scope} (hvisited : Visited c library requests e scope h) :
    K.inv h ∧ K.visit h e scope := by
  obtain ⟨trap, alarm, hset, hsprung⟩ := hvisited
  by_contra hnot
  have hspares : K.Spares trap := by
    intro e' scope' h' hinv hvisit
    cases htrap : trap e' scope' h' with
    | false => rfl
    | true =>
      obtain ⟨rfl, rfl, rfl⟩ := hset e' scope' h' htrap
      exact absurd ⟨hinv, hvisit⟩ hnot
  exact hsprung (serve_keeps hlasts (trapped_walks hspares) requests ⟨hstart, rfl⟩).1

end Conduct

end LazyModules.Engine
