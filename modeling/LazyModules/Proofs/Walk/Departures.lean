import LazyModules.Eval.Display

/-!
# Evaluations that part

Two evaluations that do the very same until both fail, and then perhaps each in its own way. A `Departure`
says which errors both may raise and in which ways they may part. Nothing in the evaluation of an expression
catches an error, so evaluations part if the walkers that they are given do, and the two failures are handed
up as they are.

**Results.** `Parts.bind`, `Parts.demand`: the two ways in which computations are put together.
`step_parts`, `walker_walks`: expressions, and the walker by need. `displayWith_parts`: values that are shown.
-/
namespace LazyModules.Eval

variable {σ α β : Type}

/-- How a computation ends that has no result: with trouble, or for want of depth. -/
def failure : Option Trouble → Outcome Trouble α
  | some t => .error t
  | none => .exhausted

/-- How two computations may fail: with an error that they share, or each in its own way. -/
structure Departure (σ : Type) where
  /-- a semantic error that both may end with -/
  raises : SemanticError → Prop
  /-- two failures that need not be the same -/
  apart : Option Trouble × Heap σ → Option Trouble × Heap σ → Prop
  /-- the cell of a job that failed waits again -/
  setCell : ∀ {t h t' h'} i job, apart (t, h) (t', h') →
    apart (t, h.setCell i (.waiting job)) (t', h'.setCell i (.waiting job))

namespace Departure

/-- How two computations may end. -/
inductive Ends (D : Departure σ) : Outcome Trouble α × Heap σ → Outcome Trouble α × Heap σ → Prop where
  | same {r : Outcome Trouble α × Heap σ} (h : ∀ e, r.1 = .error (.semantic e) → D.raises e) : D.Ends r r
  | apart {t t' : Option Trouble} {h h' : Heap σ} (hapart : D.apart (t, h) (t', h')) :
      D.Ends (failure t, h) (failure t', h')

/-- Two computations that do the same until they fail. -/
def Parts (D : Departure σ) (c c' : Eval σ α) : Prop := ∀ h, D.Ends (c h) (c' h)

/-- Errors that arise at an expression of the module at an address. -/
def RaisesAt (D : Departure σ) (address : String) : Prop :=
  ∀ c : SemanticCause, D.raises (c.raise.at (some address))

variable {D : Departure σ}

/-! ## Rules -/

/-- A computation that raises no error. -/
theorem Parts.calm {c : Eval σ α} (h : ∀ m e, (c m).1 ≠ .error (.semantic e)) : D.Parts c c :=
  fun m => .same fun e he => absurd he (h m e)

theorem Parts.pure (a : α) : D.Parts (Pure.pure a : Eval σ α) (Pure.pure a) := .calm nofun

theorem Parts.exhaust : D.Parts (Computation.exhaust : Eval σ α) Computation.exhaust := .calm nofun

theorem Parts.accident (a : Accident) : D.Parts (Eval.fail a : Eval σ α) (Eval.fail a) := .calm nofun

theorem Parts.freshId : D.Parts (Eval.freshId (σ := σ)) Eval.freshId := .calm nofun

theorem Parts.semantic {e : SemanticError} (he : D.raises e) :
    D.Parts (Computation.fail (.semantic e) : Eval σ α) (Computation.fail (.semantic e)) :=
  fun _ => .same fun e' he' => by cases he'; exact he

theorem Parts.bind {c c' : Eval σ α} {f f' : α → Eval σ β} (hc : D.Parts c c')
    (hf : ∀ a, D.Parts (f a) (f' a)) : D.Parts (c >>= f) (c' >>= f') := by
  intro h
  change D.Ends (c.bind f h) (c'.bind f' h)
  have hends := hc h
  simp only [Computation.bind]
  generalize c h = r, c' h = r' at hends
  cases hends with
  | same hraises =>
    obtain ⟨o, h₁⟩ := r
    cases o with
    | ok a => exact hf a h₁
    | error t => exact .same fun e he => hraises e (by cases he; rfl)
    | exhausted => exact .same nofun
  | @apart t t' h₁ h₁' hapart =>
    have hparted : D.Ends (failure t, h₁) ((failure t' : Outcome Trouble β), h₁') := .apart hapart
    cases t <;> cases t' <;> exact hparted

theorem Parts.mapList {f f' : α → Eval σ β} (hf : ∀ x, D.Parts (f x) (f' x)) (xs : List α) :
    D.Parts (Eval.mapList f xs) (Eval.mapList f' xs) := by
  induction xs with
  | nil => exact .pure _
  | cons x xs ih => exact (hf x).bind fun y => ih.bind fun ys => .pure _

/-- The job of a cell fails in two ways if it does so by itself. -/
theorem Parts.demand {e : SemanticError} (he : D.raises e) {run run' : Job → Eval σ Value}
    (hrun : ∀ job, D.Parts (run job) (run' job)) (i : Nat) :
    D.Parts (Machine.demand (.semantic e) run i) (Machine.demand (.semantic e) run' i) := by
  intro h
  simp only [Machine.demand]
  match h.cells[i]? with
  | none => exact .same nofun
  | some (.done _ v) => exact .same nofun
  | some (.busy _) => exact .same fun e' he' => by cases he'; exact he
  | some (.waiting job) =>
    have hends := hrun job (h.setCell i (.busy job))
    simp only
    generalize run job (h.setCell i (.busy job)) = r, run' job (h.setCell i (.busy job)) = r' at hends
    cases hends with
    | same hraises =>
      obtain ⟨o, h₁⟩ := r
      cases o with
      | ok v => exact .same nofun
      | error t => exact .same fun e' he' => hraises e' (by cases he'; rfl)
      | exhausted => exact .same nofun
    | @apart t t' h₁ h₁' hapart =>
      have hparted : D.Ends (failure t, h₁.setCell i (.waiting job))
          ((failure t' : Outcome Trouble Value), h₁'.setCell i (.waiting job)) :=
        .apart (D.setCell i job hapart)
      cases t <;> cases t' <;> exact hparted

/-! ## Values -/

theorem forceWith_parts (hcircular : D.raises (SemanticCause.circular none).raise) {load load' : Loader σ}
    (hload : ∀ importer name target, D.Parts (load importer name target) (load' importer name target))
    {ev ev' : Evaluator σ} (hev : ∀ e s, D.Parts (ev e s) (ev' e s)) (x : Slot) :
    D.Parts (forceWith load ev x) (forceWith load' ev' x) := by
  cases x with
  | constant c => exact .pure _
  | closure f => exact .pure _
  | cell i =>
    refine Parts.demand hcircular (fun job => ?_) i
    cases job with
    | expr e s => exact hev e s
    | load importer name target => exact hload importer name target

section Force

variable {F F' : Slot → Eval σ Value} (hF : ∀ x, D.Parts (F x) (F' x))

include hF

theorem lookWith_parts {s : Scope} (hat : D.RaisesAt s.address) (name : String) (x : Slot) :
    D.Parts (lookWith F s name x) (lookWith F' s name x) := by
  cases x with
  | constant c => exact hF _
  | closure f => exact hF _
  | cell i =>
    refine Parts.bind (.calm nofun) fun busy => ?_
    cases busy with
    | true => exact .semantic (hat _)
    | false => exact hF _

theorem deepWith_parts (depth : Nat) (v : Value) : D.Parts (deepWith F depth v) (deepWith F' depth v) := by
  induction depth generalizing v with
  | zero => exact .exhaust
  | succ depth ih =>
    cases v with
    | nil | flag _ | number _ | text _ | function _ => exact .pure _
    | list i items =>
      exact Parts.bind (.mapList (fun x => (hF x).bind ih) items) fun trees => .pure _
    | record i fields =>
      refine Parts.bind (.mapList (fun p => ?_) fields) fun trees => .pure _
      exact (hF p.2).bind fun v => (ih v).bind fun tree => .pure _

theorem compareWith_parts (depth : Nat) (a b : Value) :
    D.Parts (compareWith F depth a b) (compareWith F' depth a b) :=
  (deepWith_parts hF depth a).bind fun _ => (deepWith_parts hF depth b).bind fun _ => .pure _

theorem showWith_parts (depth : Nat) (busy : List Nat) (v : Value) :
    D.Parts (showWith F depth busy v) (showWith F' depth busy v) := by
  induction depth generalizing busy v with
  | zero => exact .exhaust
  | succ depth ih =>
    cases v with
    | nil | flag _ | text _ | function _ => exact .pure _
    | number n =>
      simp only [showWith]
      split
      · exact .pure _
      · exact .accident _
    | list i items =>
      simp only [showWith]
      split
      · exact .pure _
      · exact Parts.bind (.mapList (fun x => (hF x).bind (ih _)) items) fun shown => .pure _
    | record i fields =>
      simp only [showWith]
      split
      · exact .pure _
      · refine Parts.bind (.mapList (fun p => ?_) fields) fun shown => .pure _
        exact (hF p.2).bind fun v => (ih _ v).bind fun text => .pure _

theorem displayWith_parts (depth : Nat) (v : Value) :
    D.Parts (displayWith F depth v) (displayWith F' depth v) := by
  cases v with
  | text s => exact .pure _
  | _ => exact showWith_parts hF depth [] _

end Force

/-! ## Expressions -/

/-- Two walkers that part, at an expression in a scope. -/
structure Walks (D : Departure σ) (s : Scope) (W W' : Walker σ) : Prop where
  strict : ∀ e s, D.Parts (W.strict e s) (W'.strict e s)
  delay : ∀ s e, D.Parts (W.delay s e) (W'.delay s e)
  force : ∀ x, D.Parts (W.force x) (W'.force x)
  look : ∀ name x, D.Parts (W.look s name x) (W'.look s name x)
  compare : ∀ a b, D.Parts (W.compare a b) (W'.compare a b)

theorem delay_parts (s : Scope) (e : Expr) : D.Parts (Eval.delay s e) (Eval.delay s e) := by
  cases e with
  | literal c _ => exact .pure _
  | lambda params body _ => exact Parts.freshId.bind fun _ => .pure _
  | _ => exact Parts.bind (.calm nofun) fun _ => .pure _

theorem walker_walks (hcircular : D.raises (SemanticCause.circular none).raise) {load load' : Loader σ}
    (hload : ∀ importer name target, D.Parts (load importer name target) (load' importer name target))
    {ev ev' : Evaluator σ} (hev : ∀ e s, D.Parts (ev e s) (ev' e s)) {s : Scope} (hat : D.RaisesAt s.address)
    (depth : Nat) : D.Walks s (walker load depth ev) (walker load' depth ev') :=
  have hforce := forceWith_parts hcircular hload hev
  { strict := hev
    delay := delay_parts
    force := hforce
    look := lookWith_parts hforce hat
    compare := compareWith_parts hforce depth }

section Step

variable {s : Scope} {W W' : Walker σ}

theorem object_parts (hat : D.RaisesAt s.address) (o : Objection) (near : Nat) :
    D.Parts (object s o near : Eval σ α) (object s o near) := .semantic (hat _)

theorem find_parts (hat : D.RaisesAt s.address) (name : String) (start : Nat) :
    D.Parts (find s name start : Eval σ Slot) (find s name start) := by
  refine Parts.bind (.calm nofun) fun fs => ?_
  split
  · exact .semantic (hat _)
  · exact object_parts hat _ _
  · exact .pure _

theorem calculate_parts (hat : D.RaisesAt s.address) (op : BinaryOp) (start : Nat) (a : Number.Arithmetic)
    (x y : Number) : D.Parts (calculate s op start a x y : Eval σ Value) (calculate s op start a x y) := by
  refine Parts.freshId.bind fun i => ?_
  split
  · exact .pure _
  · exact object_parts hat _ _
  · exact .accident _

theorem joinLists_parts (i : Nat) (xs : List Slot) (j : Nat) (ys : List Slot) :
    D.Parts (joinLists i xs j ys : Eval σ Value) (joinLists i xs j ys) := by
  unfold joinLists
  split
  · exact .pure _
  · split
    · exact .pure _
    · exact Parts.freshId.bind fun _ => .pure _

theorem applyBinary_parts (hat : D.RaisesAt s.address) (hcompare : ∀ a b, D.Parts (W.compare a b) (W'.compare a b))
    (op : BinaryOp) (start : Nat) (a b : Value) :
    D.Parts (applyBinary W.compare s op start a b) (applyBinary W'.compare s op start a b) := by
  unfold applyBinary
  split
  · exact (hcompare a b).bind fun _ => .pure _
  · exact (hcompare a b).bind fun _ => .pure _
  · split
    · exact calculate_parts hat _ _ _ _ _
    · exact .pure _
    · exact joinLists_parts _ _ _ _
    · exact object_parts hat _ _
  all_goals
    split
    · first | exact .pure _ | exact calculate_parts hat _ _ _ _ _
    · first | exact .pure _ | exact object_parts hat _ _
    try exact object_parts hat _ _

theorem applyUnary_parts (hat : D.RaisesAt s.address) (op : UnaryOp) (start : Nat) (v : Value) :
    D.Parts (applyUnary s op start v : Eval σ Value) (applyUnary s op start v) := by
  unfold applyUnary
  split
  · exact Parts.freshId.bind fun _ => .pure _
  · exact .pure _
  · exact object_parts hat _ _

theorem beyond_parts (hat : D.RaisesAt s.address) (start : Nat) (v : Value) (i : Int) (n : Nat) :
    D.Parts (beyond s start v i n : Eval σ Value) (beyond s start v i n) := by
  unfold beyond
  split
  · exact object_parts hat _ _
  · exact .accident _

theorem applySubscript_parts (hat : D.RaisesAt s.address) (hforce : ∀ x, D.Parts (W.force x) (W'.force x))
    (start : Nat) (v index : Value) :
    D.Parts (applySubscript W.force s start v index) (applySubscript W'.force s start v index) := by
  unfold applySubscript
  split
  · split
    · exact hforce _
    · exact beyond_parts hat _ _ _ _
  · split
    · exact .pure _
    · exact beyond_parts hat _ _ _ _
  · split
    · exact hforce _
    · exact object_parts hat _ _
  · exact object_parts hat _ _

theorem applyField_parts (hat : D.RaisesAt s.address) (hforce : ∀ x, D.Parts (W.force x) (W'.force x))
    (key : String) (start : Nat) (v : Value) :
    D.Parts (applyField W.force s key start v) (applyField W'.force s key start v) := by
  unfold applyField
  split
  · split
    · exact hforce _
    · exact object_parts hat _ _
  · exact object_parts hat _ _

theorem delayFields_parts (hdelay : ∀ e, D.Parts (W.delay s e) (W'.delay s e)) (done : Table Slot)
    (fields : List (String × Expr)) :
    D.Parts (delayFields (W.delay s) done fields) (delayFields (W'.delay s) done fields) := by
  induction fields generalizing done with
  | nil => exact .pure _
  | cons field fields ih => exact (hdelay field.2).bind fun x => ih _

theorem applyCall_parts (hat : D.RaisesAt s.address) (hW : D.Walks s W W') (fn : Expr) (args : List Expr)
    (start : Nat) (v : Value) :
    D.Parts (applyCall W s fn args start v) (applyCall W' s fn args start v) := by
  cases v with
  | function f =>
    simp only [applyCall]
    split
    · exact object_parts hat _ _
    · refine Parts.bind (.mapList (hW.delay s) args) fun xs => ?_
      exact Parts.bind (.calm nofun) fun inner => hW.strict f.body inner
  | _ => exact object_parts hat _ _

/-- Evaluations of an expression part if the walkers for what is inside it do. -/
theorem step_parts (hat : D.RaisesAt s.address) (hW : D.Walks s W W') (e : Expr) :
    D.Parts (step W e s) (step W' e s) := by
  cases e with
  | literal c _ => exact .pure _
  | lookup name start => exact (find_parts hat name start).bind fun x => hW.look name x
  | lambda params body _ => exact Parts.freshId.bind fun _ => .pure _
  | binary lhs op rhs start =>
    refine (hW.strict lhs s).bind fun a => (hW.strict rhs s).bind fun b => ?_
    exact applyBinary_parts hat hW.compare op start a b
  | shortcut lhs op rhs start =>
    refine (hW.strict lhs s).bind fun a => ?_
    split
    · split
      · exact .pure _
      · refine (hW.strict rhs s).bind fun b => ?_
        split
        · exact .pure _
        · exact object_parts hat _ _
    · exact object_parts hat _ _
  | unary op arg start => exact (hW.strict arg s).bind fun v => applyUnary_parts hat op start v
  | cond test yes no start =>
    refine (hW.strict test s).bind fun v => ?_
    split
    · exact hW.strict yes s
    · exact hW.strict no s
    · exact object_parts hat _ _
  | call fn args start => exact (hW.strict fn s).bind fun v => applyCall_parts hat hW fn args start v
  | field lhs name start =>
    exact (hW.strict lhs s).bind fun v => applyField_parts hat hW.force name start v
  | subscript lhs index start =>
    refine (hW.strict lhs s).bind fun v => (hW.strict index s).bind fun i => ?_
    exact applySubscript_parts hat hW.force start v i
  | list elements _ =>
    exact Parts.bind (.mapList (hW.delay s) elements) fun xs => Parts.freshId.bind fun _ => .pure _
  | record fields _ =>
    exact (delayFields_parts (hW.delay s) [] fields).bind fun xs => Parts.freshId.bind fun _ => .pure _

end Step

end Departure

end LazyModules.Eval
