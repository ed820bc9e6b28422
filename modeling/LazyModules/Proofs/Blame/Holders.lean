import LazyModules.Proofs.Walk.Departures
import LazyModules.Proofs.Scoping.Lexical

/-!
# Who is blamed for an error

An error arises while expressions are under evaluation, each on behalf of another and perhaps in another
module. It should be blamed on the module that holds the text of the innermost one, whoever called it. The
reference for this is `held`: it evaluates by need and pays no attention to what an error says of itself. It
finds out at which expression an error arises, and writes the module of that expression into the error.

Evaluation by need has the same outcome and tells the same, with one exception. A cell that is demanded
while it is busy, and not by name, raises an error that remembers no module; it is blamed on the module whose
evaluation it ends.

**Results.** `evalHeld_parts`: expressions. `load_parts`, `evaluateBy_parts`, `renderBy_parts`: modules.
`blamed_on_holder`: what a run tells.
-/
namespace LazyModules

/-- The error, with the module that holds the text that it arose at. An import that closes a cycle stands in
the importer. -/
def SemanticError.heldBy (e : SemanticError) (holder : String) : SemanticError :=
  match e.cause with
  | .cyclicImport importer _ _ => ⟨e.cause, some importer⟩
  | cause => ⟨cause, some holder⟩

/-- A value that depends on itself and was not demanded by name. -/
def SemanticError.nameless (address : Option String) : SemanticError := ⟨.circular none, address⟩

theorem SemanticCause.heldBy_raise_at (c : SemanticCause) (address : String) :
    (c.raise.at (some address)).heldBy address = c.raise.at (some address) := by
  cases c <;> rfl

namespace Eval

variable {σ : Type}

/-! ## The reference -/

/-- An evaluator that ends for want of depth where the given one fails. -/
def hushed (ev : Evaluator σ) : Evaluator σ := fun e scope h =>
  match ev e scope h with
  | (.error _, h') => (.exhausted, h')
  | r => r

/-- Evaluation by need that blames an error on the module of the innermost expression under evaluation. The
error arises at an expression itself, and not at one that is evaluated on its behalf, if it is still there
when all of those are hushed. -/
def evalHeld (load : Loader σ) : (depth : Nat) → Evaluator σ
  | 0, _, _ => Computation.exhaust
  | depth + 1, e, scope => fun h =>
    match step (walker load depth (hushed (evalHeld load depth))) e scope h with
    | (.error (.semantic x), h') => (.error (.semantic (x.heldBy scope.address)), h')
    | _ => step (walker load depth (evalHeld load depth)) e scope h

/-- Imports whose errors are about imports, and so have their holder already. -/
def Settled (load : Loader σ) : Prop :=
  ∀ importer name target h e, (load importer name target h).1 = .error (.semantic e) →
    ∀ holder, e.heldBy holder = e

/-- What becomes of the evaluation of an expression in the module at an address if the evaluations inside it
are hushed: it may end for want of depth instead of failing. An error that is left remembers that module, or
none if it is nameless. -/
def hush (address : String) : Departure σ where
  raises e := e.heldBy address = e ∨ e = .nameless none
  apart r r' := r.1 = none ∧ r'.1.isSome ∧ r'.2 = r.2
  setCell := by
    rintro t h t' h' i job ⟨ht, ht', rfl⟩
    exact ⟨ht, ht', rfl⟩

theorem hushed_parts (address : String) (ev : Evaluator σ) (e : Expr) (scope : Scope) :
    (hush address).Parts (hushed ev e scope) (ev e scope) := by
  intro h
  unfold hushed
  rcases ev e scope h with ⟨o, h'⟩
  cases o with
  | ok v => exact .same nofun
  | error t =>
    have hapart : (hush (σ := σ) address).apart (none, h') (some t, h') := ⟨rfl, rfl, rfl⟩
    exact .apart hapart
  | exhausted => exact .same nofun

theorem step_hushed {load : Loader σ} (hload : Settled load) (depth : Nat) (ev : Evaluator σ) (e : Expr)
    (scope : Scope) : (hush scope.address).Parts (step (walker load depth (hushed ev)) e scope)
      (step (walker load depth ev) e scope) := by
  have hat : (hush (σ := σ) scope.address).RaisesAt scope.address :=
    fun c => .inl (c.heldBy_raise_at scope.address)
  refine Departure.step_parts hat (Departure.walker_walks (Or.inr rfl) ?_ (hushed_parts _ ev) hat depth) e
  exact fun importer name target h => .same fun x hx => .inl (hload importer name target h x hx _)

end Eval

namespace Engine

open Eval

/-- Expressions are evaluated by need, and errors blamed on the module of the innermost one. -/
def held : Walking := fun load depth => Eval.walker load depth (evalHeld load depth)

/-! ## Two stories -/

/-- Two states that differ in the story of one error. The first tells that a nameless error was reported
against `address`, with no module remembered; the second that the module at `holder` was remembered. -/
structure ToldApart (address holder : String) (h h' : EngineState) : Prop where
  /-- nothing else is different -/
  same : h' = Heap.setOuter h { h.rest.outer with
    library := { h.rest.outer.library with report := h'.rest.outer.library.report }
    journal := h'.rest.outer.journal }
  report : ∃ r : Report, ∃ message,
    h.rest.outer.library.report = r.plainError address message [] ∧
    h'.rest.outer.library.report = r.plainError (culprit (.nameless (some holder)) address) message []
  journal : ∃ later earlier,
    h.rest.outer.journal = later ++ .blamed (.nameless none) address :: earlier ∧
    h'.rest.outer.journal =
      later ++ .blamed (.nameless (some holder)) (culprit (.nameless (some holder)) address) :: earlier

namespace ToldApart

variable {address holder : String} {h h' : EngineState}

theorem setCell (htold : ToldApart address holder h h') (i : Nat) (cell : Cell Job Value) :
    ToldApart address holder (h.setCell i cell) (h'.setCell i cell) := by
  obtain ⟨hsame, hreport, hjournal⟩ := htold
  refine ⟨?_, hreport, hjournal⟩
  conv_lhs => rw [hsame]
  rfl

theorem markFailed (htold : ToldApart address holder h h') (a : String) :
    ToldApart address holder (Heap.setOuter h (h.rest.outer.markFailed a))
      (Heap.setOuter h' (h'.rest.outer.markFailed a)) := by
  obtain ⟨hsame, hreport, hjournal⟩ := htold
  have hfailed : h'.rest.outer.failed = h.rest.outer.failed := by rw [hsame]; rfl
  by_cases hmem : h.rest.outer.failed.contains a = true
  · simp only [Session.markFailed, hfailed, hmem, if_true]
    exact ⟨hsame, hreport, hjournal⟩
  · simp only [Session.markFailed, hfailed, hmem]
    refine ⟨?_, hreport, hjournal⟩
    conv_lhs => rw [hsame]
    rfl

theorem leave (htold : ToldApart address holder h h') (a : String) :
    ToldApart address holder (pop a h) (pop a h') := by
  obtain ⟨hsame, hreport, later, earlier, hjournal, hjournal'⟩ := htold
  refine ⟨?_, hreport, .left a :: later, earlier, congrArg (List.cons (Event.left a)) hjournal,
    congrArg (List.cons (Event.left a)) hjournal'⟩
  conv_lhs => rw [hsame]
  rfl

end ToldApart

/-- Where the reference may come out otherwise than evaluation by need: a nameless error remembers no module,
and is reported against another one. -/
inductive Astray : Option Trouble × EngineState → Option Trouble × EngineState → Prop where
  | raised (holder : String) (h : EngineState) :
      Astray (some (.semantic (.nameless none)), h) (some (.semantic (.nameless (some holder))), h)
  | told {address holder : String} {h h' : EngineState} (htold : ToldApart address holder h h') :
      Astray (some (.reported .evaluate), h) (some (.reported .evaluate), h')

/-- The reference departs from evaluation by need only where a nameless error goes astray. -/
def straying : Departure Session where
  raises _ := True
  apart := Astray
  setCell i job hapart := by
    cases hapart with
    | raised holder h => exact .raised holder _
    | told htold => exact .told (htold.setCell i _)

theorem ends_raised {α : Type} (holder : String) (h : EngineState) :
    straying.Ends ((.error (.semantic (.nameless none)), h) : Outcome Trouble α × EngineState)
      (.error (.semantic (.nameless (some holder))), h) := by
  have hastray : straying.apart (some _, h) (some _, h) := Astray.raised holder h
  exact .apart hastray

theorem ends_told {α : Type} {address holder : String} {h h' : EngineState}
    (htold : ToldApart address holder h h') :
    straying.Ends ((.error (.reported .evaluate), h) : Outcome Trouble α × EngineState)
      (.error (.reported .evaluate), h') := by
  have hastray : straying.apart (some _, h) (some _, h') := Astray.told htold
  exact .apart hastray

theorem parts_refl {α : Type} (a : Action α) : straying.Parts a a := fun _ => .same fun _ _ => trivial

theorem straying_raisesAt (address : String) : straying.RaisesAt address := fun _ => trivial

/-! ## Expressions -/

/-- An expression comes out alike, but for nameless errors. The error that arises at the expression itself
has the right module or none; all others are left as they are. -/
theorem evalHeld_parts {load load' : Loader Session} (hsettled : Settled load')
    (hload : ∀ importer name target, straying.Parts (load importer name target) (load' importer name target))
    (depth : Nat) (e : Expr) (scope : Scope) :
    straying.Parts (eval load depth e scope) (evalHeld load' depth e scope) := by
  induction depth generalizing e scope with
  | zero => exact .exhaust
  | succ depth ih =>
    intro h
    have hat := straying_raisesAt scope.address
    have hends := Departure.step_parts hat (Departure.walker_walks trivial hload ih hat depth) e h
    have hhushed := step_hushed hsettled depth (evalHeld load' depth) e scope h
    simp only [eval, evalHeld]
    generalize step (Eval.walker load depth (eval load depth)) e scope h = q at hends ⊢
    generalize step (Eval.walker load' depth (hushed (evalHeld load' depth))) e scope h = r,
      step (Eval.walker load' depth (evalHeld load' depth)) e scope h = p at hends hhushed ⊢
    cases hhushed with
    | @apart t t' h₁ h₂ hapart =>
      obtain ⟨rfl, -, -⟩ := hapart
      exact hends
    | same hraises =>
      obtain ⟨o, h₁⟩ := r
      match o with
      | .ok v | .exhausted | .error (.reported _) | .error (.accident _) => exact hends
      | .error (.semantic x) =>
        change straying.Ends q (.error (.semantic (x.heldBy scope.address)), h₁)
        rcases hraises x rfl with hheld | rfl
        · rw [hheld]
          exact hends
        · -- nothing departs from an error that remembers no module, so evaluation by need ends with it
          generalize hp : ((.error (.semantic (.nameless none)), h₁) : Outcome Trouble Value × EngineState) = p
            at hends
          cases hends with
          | same _ =>
            subst hp
            exact ends_raised scope.address h₁
          | apart hapart =>
            cases hapart with
            | raised holder => cases hp
            | told htold => cases hp

/-! ## Modules -/

theorem evaluateWith_ne_semantic (c : Config) (W : Walker Session) (address : String) (h : EngineState)
    (e : SemanticError) : (evaluateWith c W address h).1 ≠ .error (.semantic e) := by
  cases hvalue : Table.find? h.rest.outer.values address with
  | some v =>
    rw [evaluateWith_known hvalue]
    intro hv
    cases hv
  | none =>
    obtain ⟨s, hs, hparses⟩ := parse_parses c address
      (Heap.setOuter h (h.rest.outer.note (.demanded address)))
    rw [evaluateWith_unknown hvalue]
    simp only [Computation.bind, Computation.tryCatch]
    generalize parse c address (Heap.setOuter h (h.rest.outer.note (.demanded address))) = r at hs hparses
    obtain ⟨o, h₁⟩ := r
    cases o with
    | ok m =>
      obtain ⟨o, s', hwind, hsettles⟩ := windUp_settles address (evaluateBody W address m (Heap.setOuter h₁
        ((h₁.rest.outer.setLibrary (announced address h₁.rest.outer.library)).enter address)))
      simp only [evaluateModule_eq, hwind]
      exact fun ho => hsettles.ne_semantic e (congrArg Outcome.ending ho)
    | exhausted =>
      intro hr
      cases hr
    | error t =>
      cases t with
      | semantic e' => exact absurd rfl (hparses.ne_semantic e')
      | reported phase | accident a =>
        intro hr
        cases hr

theorem load_settled (c : Config) (walk : Walking) (nesting : Nat) : Settled (load c walk nesting) := by
  cases nesting with
  | zero => exact fun _ _ _ _ _ => nofun
  | succ nesting =>
    intro importer name target h e he holder
    have hload : load c walk (nesting + 1) importer name target h =
        (if h.rest.outer.evaluating.contains target then
          Computation.fail (.semantic (cycleError h.rest.outer.evaluating importer name target))
        else evaluateWith c (walk (load c walk nesting) c.depth) target : Action Value) h := rfl
    rw [hload] at he
    split at he
    · obtain rfl := Trouble.semantic.inj (Outcome.error.inj he)
      rfl
    · exact absurd he (evaluateWith_ne_semantic c _ target h e)

/-- A nameless error is reported, against the module that it remembers if it remembers one. -/
theorem blame_nameless {α : Type} (remembered : Option String) (address : String) (h : EngineState) :
    (blame (.nameless remembered) address : Action α) h = (.error (.reported .evaluate), Heap.setOuter h
      ((h.rest.outer.note (.blamed (.nameless remembered)
        (culprit (.nameless remembered) address))).setReport (h.rest.outer.report.plainError
          (culprit (.nameless remembered) address) (SemanticCause.circular none).message []))) := rfl

theorem blame_told {α : Type} (holder address : String) (h : EngineState) :
    ∃ h₁ h₂, (blame (.nameless none) address : Action α) h = (.error (.reported .evaluate), h₁) ∧
      (blame (.nameless (some holder)) address : Action α) h = (.error (.reported .evaluate), h₂) ∧
      ToldApart address holder h₁ h₂ :=
  ⟨_, _, blame_nameless none address h, blame_nameless (some holder) address h,
    ⟨rfl, ⟨h.rest.outer.report, _, rfl, rfl⟩, ⟨[], h.rest.outer.journal, rfl, rfl⟩⟩⟩

theorem windUp_parts (address : String) {r r' : Outcome Trouble Value × EngineState}
    (hends : straying.Ends r r') : straying.Ends (windUp address r) (windUp address r') := by
  cases hends with
  | same _ => exact .same fun _ _ => trivial
  | @apart t t' h h' hapart =>
    cases hapart with
    | raised holder =>
      obtain ⟨h₁, h₂, hblame, hblame', htold⟩ := blame_told (α := Value) holder address
        (Heap.setOuter h (h.rest.outer.markFailed address))
      have hwind (x : SemanticError) (h' : EngineState) (hx : (blame x address : Action Value)
          (Heap.setOuter h (h.rest.outer.markFailed address)) = (.error (.reported .evaluate), h')) :
          windUp address (.error (.semantic x), h) = (.error (.reported .evaluate), pop address h') := by
        have hhandle : handleTrouble address (.semantic x) h = (.error (.reported .evaluate), h') := hx
        simp only [windUp, Computation.bind, Computation.ensure, Computation.tryCatch, hhandle]
      change straying.Ends (windUp address (.error (.semantic _), h)) (windUp address (.error (.semantic _), h))
      rw [hwind _ _ hblame, hwind _ _ hblame']
      exact ends_told (htold.leave address)
    | told htold => exact ends_told ((htold.markFailed address).leave address)

section Walkers

variable {W W' : Walker Session} (hstrict : ∀ e scope, straying.Parts (W.strict e scope) (W'.strict e scope))
  (hdelay : ∀ scope e, straying.Parts (W.delay scope e) (W'.delay scope e))

include hstrict hdelay

theorem evaluateBody_parts (address : String) (m : Module) :
    straying.Parts (evaluateBody W address m) (evaluateBody W' address m) := by
  have hassign (scope : Scope) (ds : List Declaration) :
      straying.Parts (assignAll (W.delay scope) scope ds) (assignAll (W'.delay scope) scope ds) := by
    induction ds with
    | nil => exact parts_refl _
    | cons d ds ih => exact (hdelay scope d.expr).bind fun x => (parts_refl _).bind fun _ => ih
  have hscope : straying.Parts (moduleScope W address m) (moduleScope W' address m) :=
    (parts_refl (openScope address m)).bind fun scope => (hassign scope _).bind fun _ => parts_refl _
  refine hscope.bind fun scope => ?_
  split
  · exact parts_refl _
  · exact hstrict _ scope

theorem evaluateWith_parts (c : Config) (address : String) :
    straying.Parts (evaluateWith c W address) (evaluateWith c W' address) := by
  refine (parts_refl _).bind fun _ => (parts_refl _).bind fun s => ?_
  split
  · exact parts_refl _
  · refine (parts_refl _).bind fun m h => ?_
    rw [evaluateModule_eq, evaluateModule_eq]
    exact windUp_parts address (evaluateBody_parts hstrict hdelay address m _)

end Walkers

theorem held_walks {load load' : Loader Session} (hsettled : Settled load')
    (hload : ∀ importer name target, straying.Parts (load importer name target) (load' importer name target))
    (depth : Nat) (scope : Scope) : straying.Walks scope (byNeed load depth) (held load' depth) :=
  Departure.walker_walks trivial hload (evalHeld_parts hsettled hload depth) (straying_raisesAt _) depth

/-- Imports come out alike, through any number of nested modules. -/
theorem load_parts (c : Config) (nesting : Nat) (importer name target : String) :
    straying.Parts (load c byNeed nesting importer name target) (load c held nesting importer name target) := by
  induction nesting generalizing importer name target with
  | zero => exact .exhaust
  | succ nesting ih =>
    have hW (scope : Scope) := held_walks (load_settled c held nesting) ih c.depth scope
    refine (parts_refl session).bind fun s => ?_
    split
    · exact parts_refl _
    · exact evaluateWith_parts (fun e scope => (hW scope).strict e scope) (fun scope => (hW scope).delay scope)
        c target

theorem walker_walks (c : Config) (scope : Scope) :
    straying.Walks scope (walker c byNeed) (walker c held) :=
  held_walks (load_settled c held c.depth) (load_parts c c.depth) c.depth scope

theorem evaluateBy_parts (c : Config) (address : String) :
    straying.Parts (evaluateBy c byNeed address) (evaluateBy c held address) :=
  evaluateWith_parts (fun e scope => (walker_walks c scope).strict e scope)
    (fun scope => (walker_walks c scope).delay scope) c address

theorem renderBy_parts (c : Config) (address : String) :
    straying.Parts (renderBy c byNeed address) (renderBy c held address) := by
  refine (evaluateBy_parts c address).bind fun v h => ?_
  have hends := Departure.displayWith_parts (walker_walks c ⟨address, []⟩).force c.depth v h
  simp only [Computation.tryCatch]
  generalize displayWith (walker c byNeed).force c.depth v h = r,
    displayWith (walker c held).force c.depth v h = r' at hends
  cases hends with
  | same _ => exact .same fun _ _ => trivial
  | @apart t t' h h' hapart =>
    cases hapart with
    | raised holder =>
      obtain ⟨h₁, h₂, hblame, hblame', htold⟩ := blame_told (α := String) holder address h
      change straying.Ends (blame (.nameless none) address h) (blame (.nameless (some holder)) address h)
      rw [hblame, hblame']
      exact ends_told htold
    | told htold => exact ends_told htold

/-! ## What a run tells -/

/-- Two ends that are the same or told apart. -/
theorem ending_of_ends {α : Type} {r r' : Outcome Trouble α × EngineState} (hends : straying.Ends r r')
    (hcalm : ∀ e, r.1 ≠ .error (.semantic e)) :
    (r'.1.ending, r'.2) = (r.1.ending, r.2) ∨ ∃ address holder, r.1.ending = .error (.reported .evaluate) ∧
      r'.1.ending = .error (.reported .evaluate) ∧ ToldApart address holder r.2 r'.2 := by
  cases hends with
  | same _ => exact .inl rfl
  | apart hapart =>
    cases hapart with
    | raised holder => exact absurd rfl (hcalm _)
    | told htold => exact .inr ⟨_, _, rfl, rfl, htold⟩

theorem renderBy_ne_semantic (c : Config) (walk : Walking) (address : String) (h : EngineState)
    (e : SemanticError) : (renderBy c walk address h).1 ≠ .error (.semantic e) := by
  have hevaluate := evaluateWith_ne_semantic c (walker c walk) address h
  simp only [renderBy, evaluateBy, bind, Computation.bind, Computation.tryCatch]
  generalize evaluateWith c (walker c walk) address h = r at hevaluate
  obtain ⟨o, h₁⟩ := r
  cases o with
  | error t => exact fun ht => hevaluate e (by cases ht; rfl)
  | exhausted =>
    intro hr
    cases hr
  | ok v =>
    simp only
    generalize displayWith (walker c walk).force c.depth v h₁ = r'
    obtain ⟨o, h₂⟩ := r'
    cases o with
    | ok text | exhausted =>
      intro hr
      cases hr
    | error t =>
      cases t with
      | semantic e' =>
        obtain ⟨t, s, heq, hblames⟩ := blame_blames (α := String) e' address h₂
        simp only [heq]
        exact fun ht => hblames.ne_semantic (congrArg Outcome.ending ht)
      | reported phase | accident a =>
        intro hr
        cases hr

/-- An error is blamed on the module that holds the text. What a run visits stands in the text of the module of
its scope, and an error is reported against the module that it remembers. Whatever is asked for then, evaluation
by need ends like the reference, which remembers the module of the innermost expression under evaluation (or the
importer, if an import closes a cycle), and leaves the same state. The one exception is a value that depends on
itself and is demanded otherwise than by name. That ends both in a report and the states differ in its address
only: evaluation by need names the module whose evaluation ends there. -/
theorem blamed_on_holder (c : Config) (library : Library) (requests : List Request) :
    (∀ e scope h, Visited c library requests e scope h →
      ∃ m Γ, Table.find? h.rest.outer.modules scope.address = some m ∧ m.address = scope.address ∧
        SaysText c h.rest.outer.library.cache.loaded m ∧ (Γ, e) ∈ m.places) ∧
    let h := (serve c byNeed requests (.start library)).2
    (∀ x a holder, .blamed x a ∈ h.rest.outer.journal → x.address = some holder → holder ≠ "" → a = holder) ∧
    ∀ q, answer c held h q = answer c byNeed h q ∨
      ∃ address holder, (answer c byNeed h q).1 = .error (.reported .evaluate) ∧
        (answer c held h q).1 = .error (.reported .evaluate) ∧
        ToldApart address holder (answer c byNeed h q).2 (answer c held h q).2 := by
  refine ⟨fun e scope h hvisited => ?_, fun x a holder hblamed hremembers hsome => ?_, fun q => ?_⟩
  · obtain ⟨hinv, m, Γ, hm, hmem, -⟩ := Conduct.visit_of_visited (lexical_lasts c) (lexical_start c library)
      hvisited
    obtain ⟨haddress, hsays⟩ := hinv.modules _ _ hm
    exact ⟨m, Γ, hm, haddress, hsays, hmem⟩
  · have hlexical := (Conduct.serve_keeps (lexical_lasts c) Conduct.byNeed_walks requests
      ⟨lexical_start c library, rfl⟩).2.1.1
    obtain ⟨-, other, rfl⟩ := hlexical.blamed x a hblamed
    rw [culprit, hremembers, Option.filter_some, if_pos (by simpa using hsome), Option.getD_some]
  · cases q with
    | evaluate address => exact ending_of_ends (evaluateBy_parts c address _) (evaluateWith_ne_semantic c _ address _)
    | render address => exact ending_of_ends (renderBy_parts c address _) (renderBy_ne_semantic c byNeed address _)
    | change world => exact .inl rfl

/-- A field that depends on itself through another module. The expression `r.x` stands in `l`, and `m` is
blamed. -/
theorem nameless_blamed_on_importer :
    let library : Library := ⟨⟨none, [], [("m", .text (Text.pointsOf "l \"l\" l.x")),
      ("l", .text (Text.pointsOf "r = \x7bx: r.x\x7d r"))]⟩, .empty false, ⟨.empty, [], []⟩⟩
    let told (walk : Walking) :=
      (answer ⟨Reading.ofText, 8⟩ walk (.start library) (.evaluate "m")).2.rest.outer.journal
    .blamed (.nameless none) "m" ∈ told byNeed ∧ .blamed (.nameless (some "l")) "l" ∈ told held := by
  decide +kernel

end Engine

end LazyModules
