import LazyModules.Eval.Display
import LazyModules.Proofs.Discipline.Keeps
import LazyModules.Proofs.Table

/-!
# Evaluation keeps a discipline

`step` keeps a discipline as long as the walker that it is given does (`Respects`), and the walker by need
does if imports are brought to their values in that way (`Honours`). So what holds of the steps of an
evaluation holds of all of it:

* `step_keeps`: an expression that may be evaluated, given a walker;
* `eval_keeps`, `forceWith_keeps`, `deepWith_keeps`, `displayWith_keeps`: the evaluator by need, to any depth.

Every fact about evaluation that is an invariant, or says what is left unchanged, or what an error says, is
an instance.
-/
namespace LazyModules.Eval

variable {σ : Type}

namespace Outlook

variable (K : Outlook σ)

/-- Two walkers that do the same and keep to an outlook. The first delays expressions as evaluation by need
does. -/
structure Respects (W W' : Walker σ) : Prop where
  delays : W.delay = Eval.delay
  strict : ∀ {h e s}, K.visit h e s → K.Keeps h K.Value (W.strict e s) (W'.strict e s)
  delay : ∀ {h e s}, K.visit h e s → K.Keeps h K.Slot (W.delay s e) (W'.delay s e)
  force : ∀ {h x}, K.Slot h x → K.Keeps h K.Value (W.force x) (W'.force x)
  look : ∀ {h name start s x}, K.visit h (.lookup name start) s → K.Slot h x →
    K.Keeps h K.Value (W.look s name x) (W'.look s name x)
  compare : ∀ {h a b}, K.Value h a → K.Value h b →
    K.Keeps h (fun _ _ => True) (W.compare a b) (W'.compare a b)

/-- Two evaluators that do the same and keep to an outlook. -/
def Trusts (ev ev' : Evaluator σ) : Prop :=
  ∀ {h e s}, K.visit h e s → K.Keeps h K.Value (ev e s) (ev' e s)

/-- Two ways to bring imports to their values that do the same and keep to an outlook. -/
def Honours (load load' : Loader σ) : Prop :=
  ∀ h importer name target, K.load h importer name target →
    K.Keeps h K.Value (load importer name target) (load' importer name target)

end Outlook

namespace Discipline

variable {K : Discipline σ} {h : Heap σ} {W W' : Walker σ}

/-! ## Operators and containers -/

theorem freshId_keeps : K.Keeps h (fun _ _ => True) Eval.freshId Eval.freshId := .of_ends K.freshId

/-- An objection to an expression in its own scope, about the term that the expression points at. -/
theorem object_keeps {α : Type} {V : Heap σ → α → Prop} {e : Expr} {s : Scope} (hvisit : K.visit h e s)
    {o : Objection} {near : Nat} (hpointer : pointer? e = some (o.term, near)) :
    K.Keeps h V (object s o near) (object s o near) :=
  Keeps.fail fun hinv => K.objection hinv hvisit hpointer

theorem calculate_keeps {e : Expr} {s : Scope} (hvisit : K.visit h e s) {op : BinaryOp} {start : Nat}
    (hpointer : pointer? e = some (op.text, start)) (a : Number.Arithmetic) (x y : Number) :
    K.Keeps h K.Value (calculate s op start a x y) (calculate s op start a x y) := by
  refine Keeps.bind freshId_keeps fun h' i hle _ => ?_
  split
  · exact Keeps.pure trivial
  · exact object_keeps (K.visit_mono hle hvisit) hpointer
  · exact Keeps.accident _

theorem joinLists_keeps {i j : Nat} {xs ys : List Slot} (hxs : ∀ x ∈ xs, K.Slot h x)
    (hys : ∀ y ∈ ys, K.Slot h y) : K.Keeps h K.Value (joinLists i xs j ys) (joinLists i xs j ys) := by
  unfold joinLists
  split
  · exact Keeps.pure hys
  · split
    · exact Keeps.pure hxs
    · refine Keeps.bind freshId_keeps fun h' k hle _ => Keeps.pure fun z hz => slot_mono hle ?_
      rcases List.mem_append.mp hz with hz | hz
      · exact hxs z hz
      · exact hys z hz

theorem applyBinary_keeps (hW : K.Respects W W') {l r : Expr} {op : BinaryOp} {start : Nat} {s : Scope}
    (hvisit : K.visit h (.binary l op r start) s) {a b : Value} (ha : K.Value h a) (hb : K.Value h b) :
    K.Keeps h K.Value (applyBinary W.compare s op start a b) (applyBinary W'.compare s op start a b) := by
  have hmismatch : K.Keeps h K.Value (object s (.mismatch op.text [a.typeName, b.typeName]) start)
      (object s (.mismatch op.text [a.typeName, b.typeName]) start) := object_keeps hvisit rfl
  unfold applyBinary
  split
  · exact Keeps.bind (hW.compare ha hb) fun _ _ _ _ => Keeps.pure trivial
  · exact Keeps.bind (hW.compare ha hb) fun _ _ _ _ => Keeps.pure trivial
  · split
    · exact calculate_keeps hvisit rfl _ _ _
    · exact Keeps.pure trivial
    · exact joinLists_keeps ha hb
    · exact hmismatch
  all_goals
    split
    · first
        | exact calculate_keeps hvisit rfl _ _ _
        | exact Keeps.pure trivial
    · first
        | exact Keeps.pure trivial
        | exact hmismatch
    try exact hmismatch

theorem applyUnary_keeps {arg : Expr} {op : UnaryOp} {start : Nat} {s : Scope}
    (hvisit : K.visit h (.unary op arg start) s) (v : Value) :
    K.Keeps h K.Value (applyUnary s op start v) (applyUnary s op start v) := by
  unfold applyUnary
  split
  · exact Keeps.bind freshId_keeps fun _ _ _ _ => Keeps.pure trivial
  · exact Keeps.pure trivial
  · exact object_keeps hvisit rfl

theorem slot_of_find? {fields : Table Slot} (hfields : ∀ p ∈ fields, K.Slot h p.2) {k : String} {x : Slot}
    (hx : Table.find? fields k = some x) : K.Slot h x :=
  hfields _ (Table.mem_of_find? hx)

theorem applySubscript_keeps (hW : K.Respects W W') {l i : Expr} {start : Nat} {s : Scope}
    (hvisit : K.visit h (.subscript l i start) s) {a b : Value} (ha : K.Value h a) :
    K.Keeps h K.Value (applySubscript W.force s start a b) (applySubscript W'.force s start a b) := by
  have hbeyond (v : Value) (k : Int) (n : Nat) :
      K.Keeps h K.Value (beyond s start v k n) (beyond s start v k n) := by
    unfold beyond
    split
    · exact object_keeps hvisit rfl
    · exact Keeps.accident _
  unfold applySubscript
  split
  · split
    · rename_i hx
      obtain ⟨k, -, hk⟩ := Option.bind_eq_some_iff.mp hx
      exact hW.force (ha _ (List.mem_of_getElem? hk))
    · exact hbeyond _ _ _
  · split
    · exact Keeps.pure trivial
    · exact hbeyond _ _ _
  · split
    · rename_i hx
      exact hW.force (slot_of_find? ha hx)
    · exact object_keeps hvisit rfl
  · exact object_keeps hvisit rfl

theorem applyField_keeps (hW : K.Respects W W') {l : Expr} {key : String} {start : Nat} {s : Scope}
    (hvisit : K.visit h (.field l key start) s) {v : Value} (hv : K.Value h v) :
    K.Keeps h K.Value (applyField W.force s key start v) (applyField W'.force s key start v) := by
  unfold applyField
  split
  · split
    · rename_i hx
      exact hW.force (slot_of_find? hv hx)
    · exact object_keeps hvisit rfl
  · exact object_keeps hvisit rfl

/-! ## Delayed expressions -/

theorem delayAll_keeps (hW : K.Respects W W') {s : Scope} {es : List Expr} (hes : ∀ e ∈ es, K.visit h e s) :
    K.Keeps h (fun h' xs => (∀ x ∈ xs, K.Slot h' x) ∧ xs.length = es.length) (mapList (W.delay s) es)
      (mapList (W'.delay s) es) :=
  Keeps.mapList (R := fun h e => K.visit h e s) (U := K.Slot) K.visit_mono (fun hle => slot_mono hle) hW.delay hes

theorem delayFields_keeps (hW : K.Respects W W') {s : Scope} {fs : List (String × Expr)}
    (hfs : ∀ p ∈ fs, K.visit h p.2 s) {done : Table Slot} (hdone : ∀ p ∈ done, K.Slot h p.2) :
    K.Keeps h (fun h' fields => ∀ p ∈ fields, K.Slot h' p.2) (delayFields (W.delay s) done fs)
      (delayFields (W'.delay s) done fs) := by
  induction fs generalizing h done with
  | nil => exact Keeps.pure hdone
  | cons p fs ih =>
    refine Keeps.bind (hW.delay (hfs p (by simp))) fun h' x hle hx => ?_
    refine ih (fun q hq => K.visit_mono hle (hfs q (by simp [hq]))) fun q hq => ?_
    rcases Table.mem_insert hq with hq | rfl
    · exact slot_mono hle (hdone q hq)
    · exact hx

/-! ## Expressions -/

theorem find_keeps {name : String} {start : Nat} {s : Scope} (hvisit : K.visit h (.lookup name start) s) :
    K.Keeps h K.Slot (find s name start) (find s name start) := by
  have hframes : K.Keeps h (fun h' fs => h' = h ∧ fs = h.rest.frames) frames frames :=
    .of_ends fun hinv => ⟨hinv, K.refl hinv, fun fs hfs => by cases hfs; exact ⟨rfl, rfl⟩⟩
  refine Keeps.bind hframes fun h' fs _ hfs => ?_
  obtain ⟨rfl, rfl⟩ := hfs
  split
  · rename_i hlookup
    exact Keeps.fail fun hinv => K.undefined hinv hvisit hlookup
  · exact object_keeps hvisit rfl
  · rename_i x hlookup
    exact fun hinv => Keeps.pure (K.found hinv hvisit hlookup) hinv

theorem applyCall_keeps (hW : K.Respects W W') {fn : Expr} {args : List Expr} {start : Nat} {s : Scope}
    (hvisit : K.visit h (.call fn args start) s) {v : Value} (hv : K.Value h v) :
    K.Keeps h K.Value (applyCall W s fn args start v) (applyCall W' s fn args start v) := by
  cases v with
  | function f =>
    simp only [applyCall]
    split
    · exact object_keeps hvisit rfl
    · rename_i hlength
      have hargs : ∀ e ∈ args, K.visit h e s := fun e he => K.part hvisit (List.mem_cons_of_mem fn he)
      refine Keeps.bind (delayAll_keeps hW hargs) fun h' xs hle hxs => ?_
      have henter : K.Keeps h' (fun h'' s' => K.visit h'' f.body s') (Eval.enter f.scope (f.params.zip xs))
          (Eval.enter f.scope (f.params.zip xs)) := by
        obtain ⟨start, hf⟩ := closure_mono hle hv
        exact .of_ends fun hinv => K.enter hinv hf hxs.1 (by rw [hxs.2]; omega)
      exact Keeps.bind henter fun _ _ _ hbody => hW.strict hbody
  | _ => exact object_keeps hvisit rfl

/-- An expression that may be evaluated keeps to the discipline if the walker does. -/
theorem step_keeps (hW : K.Respects W W') {e : Expr} {s : Scope} (hvisit : K.visit h e s) :
    K.Keeps h K.Value (step W e s) (step W' e s) := by
  have hpart {h' : Heap σ} (hle : K.leads h (.ok ()) h') {p : Expr} (hp : p ∈ parts e) : K.visit h' p s :=
    K.visit_mono hle (K.part hvisit hp)
  have hparts {p : Expr} (hp : p ∈ parts e) : K.visit h p s := K.part hvisit hp
  cases e with
  | literal c _ => exact Keeps.pure (.constant c)
  | lookup name start =>
    exact Keeps.bind (find_keeps hvisit) fun h' x hle hx => hW.look (K.visit_mono hle hvisit) hx
  | lambda params body start =>
    exact Keeps.bind freshId_keeps fun h' i hle _ => Keeps.pure ⟨start, K.visit_mono hle hvisit⟩
  | binary l op r start =>
    refine Keeps.bind (hW.strict (hparts (by simp [parts]))) fun h₁ a h₁le ha => ?_
    refine Keeps.bind (hW.strict (hpart h₁le (by simp [parts]))) fun h₂ b h₂le hb => ?_
    exact applyBinary_keeps hW (K.visit_mono (K.trans h₁le h₂le) hvisit) (value_mono h₂le ha) hb
  | shortcut l op r start =>
    have hmismatch {h' : Heap σ} (hle : K.leads h (.ok ()) h') (v : Value) :
        K.Keeps h' K.Value (object s (.mismatch op.text [v.typeName]) start)
          (object s (.mismatch op.text [v.typeName]) start) := object_keeps (K.visit_mono hle hvisit) rfl
    refine Keeps.bind (hW.strict (hparts (by simp [parts]))) fun h₁ a h₁le _ => ?_
    split
    · split
      · exact Keeps.pure trivial
      · refine Keeps.bind (hW.strict (hpart h₁le (by simp [parts]))) fun h₂ b h₂le _ => ?_
        split
        · exact Keeps.pure trivial
        · exact hmismatch (K.trans h₁le h₂le) _
    · exact hmismatch h₁le _
  | unary op a start =>
    refine Keeps.bind (hW.strict (hparts (by simp [parts]))) fun h₁ v h₁le _ => ?_
    exact applyUnary_keeps (K.visit_mono h₁le hvisit) v
  | call fn args start =>
    refine Keeps.bind (hW.strict (hparts (by simp [parts]))) fun h₁ v h₁le hv => ?_
    exact applyCall_keeps hW (K.visit_mono h₁le hvisit) hv
  | field l name start =>
    refine Keeps.bind (hW.strict (hparts (by simp [parts]))) fun h₁ v h₁le hv => ?_
    exact applyField_keeps hW (K.visit_mono h₁le hvisit) hv
  | subscript l i start =>
    refine Keeps.bind (hW.strict (hparts (by simp [parts]))) fun h₁ a h₁le ha => ?_
    refine Keeps.bind (hW.strict (hpart h₁le (by simp [parts]))) fun h₂ b h₂le _ => ?_
    exact applySubscript_keeps hW (K.visit_mono (K.trans h₁le h₂le) hvisit) (value_mono h₂le ha)
  | cond test yes no start =>
    refine Keeps.bind (hW.strict (hparts (by simp [parts]))) fun h₁ v h₁le _ => ?_
    split
    · exact hW.strict (hpart h₁le (by simp [parts]))
    · exact hW.strict (hpart h₁le (by simp [parts]))
    · exact object_keeps (K.visit_mono h₁le hvisit) rfl
  | list es start =>
    refine Keeps.bind (delayAll_keeps hW fun e he => hparts he) fun h₁ xs _ hxs => ?_
    exact Keeps.bind freshId_keeps fun h₂ i h₂le _ => Keeps.pure fun x hx => slot_mono h₂le (hxs.1 x hx)
  | record fs start =>
    have hfs : ∀ p ∈ fs, K.visit h p.2 s := fun p hp => hparts (List.mem_map_of_mem hp)
    refine Keeps.bind (delayFields_keeps hW hfs (by simp)) fun h₁ fields _ hfields => ?_
    exact Keeps.bind freshId_keeps fun h₂ i h₂le _ => Keeps.pure fun p hp => slot_mono h₂le (hfields p hp)

/-! ## By need -/

variable {load load' : Loader σ} {ev ev' : Evaluator σ} {F F' : Slot → Eval σ Value}

theorem delay_keeps {e : Expr} {s : Scope} (hvisit : K.visit h e s) :
    K.Keeps h K.Slot (delay s e) (delay s e) := by
  have halloc : K.Keeps h K.cell (Machine.alloc (.expr e s)) (Machine.alloc (.expr e s)) :=
    .of_ends fun hinv => K.alloc hinv hvisit
  cases e with
  | literal c _ => exact Keeps.pure trivial
  | lambda params body start =>
    exact Keeps.bind freshId_keeps fun h' i hle _ => Keeps.pure ⟨start, K.visit_mono hle hvisit⟩
  | _ => exact Keeps.bind halloc fun _ _ _ hi => Keeps.pure hi

/-- A job that may be done is done. -/
theorem runJob_keeps (hload : K.Honours load load') (hev : K.Trusts ev ev') {job : Job}
    (hjob : K.Wanted h job) : K.Keeps h K.Value (runJob load ev job) (runJob load' ev' job) := by
  cases job with
  | expr e s => exact hev hjob
  | load importer name target => exact hload h importer name target hjob

theorem forceWith_keeps (hload : K.Honours load load') (hev : K.Trusts ev ev') {x : Slot}
    (hx : K.Slot h x) : K.Keeps h K.Value (forceWith load ev x) (forceWith load' ev' x) := by
  intro hinv
  cases x with
  | constant c => exact Keeps.pure (.constant c) hinv
  | closure f => exact Keeps.pure hx hinv
  | cell i =>
    match hi : h.cells[i]? with
    | none =>
      simp only [forceWith, Machine.demand, hi]
      exact ⟨trivial, .exhausted hinv (K.exhausted hinv)⟩
    | some (.done job v) =>
      simp only [forceWith, Machine.demand, hi]
      exact ⟨trivial, hinv, K.refl hinv, fun a ha => by cases ha; exact K.done hinv hx hi⟩
    | some (.busy job) =>
      simp only [forceWith, Machine.demand, hi]
      exact ⟨trivial, .error hinv (K.circular hinv hi)⟩
    | some (.waiting job) =>
      obtain ⟨hbusy, hjob, hback⟩ := K.run hinv hx hi
      obtain ⟨heq, hends⟩ := runJob_keeps hload hev hjob hbusy
      have hdemand (load : Loader σ) (ev : Evaluator σ) : forceWith load ev (.cell i) h =
          ((runJob load ev job (h.setCell i (.busy job))).1,
            (runJob load ev job (h.setCell i (.busy job))).2.setCell i
              (.after job (runJob load ev job (h.setCell i (.busy job))).1)) :=
        demand_waiting hi rfl
      rw [hdemand, hdemand, heq]
      exact ⟨rfl, hback _ hends⟩

theorem lookWith_keeps (hF : ∀ {h x}, K.Slot h x → K.Keeps h K.Value (F x) (F' x)) {name : String}
    {start : Nat} {s : Scope} (hvisit : K.visit h (.lookup name start) s) {x : Slot} (hx : K.Slot h x) :
    K.Keeps h K.Value (lookWith F s name x) (lookWith F' s name x) := by
  cases x with
  | constant c => exact hF hx
  | closure f => exact hF hx
  | cell i =>
    have hask : K.Keeps h (fun h' b => h' = h ∧ b = h.cells[i]?.any Cell.isBusy) (Machine.isBusy i)
        (Machine.isBusy i) :=
      .of_ends fun hinv => ⟨hinv, K.refl hinv, fun b hb => by cases hb; exact ⟨rfl, rfl⟩⟩
    refine Keeps.bind hask fun h' b _ hb => ?_
    obtain ⟨rfl, rfl⟩ := hb
    split
    · rename_i hbusy
      refine Keeps.fail fun hinv => ?_
      match hi : h'.cells[i]? with
      | some (.busy job) => exact K.circularName hinv hvisit hi
      | some (.waiting job) | some (.done job v) | none => simp [hi, Cell.isBusy] at hbusy
    · exact hF hx

theorem deepWith_keeps (hF : ∀ {h x}, K.Slot h x → K.Keeps h K.Value (F x) (F' x)) (depth : Nat) {v : Value}
    (hv : K.Value h v) : K.Keeps h (fun _ _ => True) (deepWith F depth v) (deepWith F' depth v) := by
  induction depth generalizing h v with
  | zero => exact Keeps.exhaust
  | succ depth ih =>
    cases v with
    | nil | flag b | number n | text s | function f => exact Keeps.pure trivial
    | list i items =>
      refine Keeps.bind (Keeps.each id (fun hx => ?_) hv) fun _ _ _ _ => Keeps.pure trivial
      exact Keeps.bind (hF hx) fun _ _ _ hv => ih hv
    | record i fields =>
      refine Keeps.bind (Keeps.each Prod.snd (fun hx => ?_) hv) fun _ _ _ _ => Keeps.pure trivial
      refine Keeps.bind (hF hx) fun _ _ _ hv => ?_
      exact Keeps.bind (ih hv) fun _ _ _ _ => Keeps.pure trivial

theorem compareWith_keeps (hF : ∀ {h x}, K.Slot h x → K.Keeps h K.Value (F x) (F' x)) (depth : Nat)
    {a b : Value} (ha : K.Value h a) (hb : K.Value h b) :
    K.Keeps h (fun _ _ => True) (compareWith F depth a b) (compareWith F' depth a b) := by
  refine Keeps.bind (deepWith_keeps hF depth ha) fun h₁ _ hle _ => ?_
  exact Keeps.bind (deepWith_keeps hF depth (value_mono hle hb)) fun _ _ _ _ => Keeps.pure trivial

theorem walker_respects (hload : K.Honours load load') (hev : K.Trusts ev ev') (depth : Nat) :
    K.Respects (walker load depth ev) (walker load' depth ev') where
  delays := rfl
  strict := hev
  delay := delay_keeps
  force := forceWith_keeps hload hev
  look hvisit hx := lookWith_keeps (forceWith_keeps hload hev) hvisit hx
  compare := compareWith_keeps (forceWith_keeps hload hev) depth

/-- Evaluation by need keeps to the discipline, as deep as it goes. -/
theorem eval_keeps (hload : K.Honours load load') (depth : Nat) :
    K.Trusts (eval load depth) (eval load' depth) := by
  induction depth with
  | zero => exact fun _ => Keeps.exhaust
  | succ depth ih => exact fun hvisit => step_keeps (walker_respects hload ih depth) hvisit

/-! ## Display -/

theorem showWith_keeps (hF : ∀ {h x}, K.Slot h x → K.Keeps h K.Value (F x) (F' x)) (depth : Nat)
    (busy : List Nat) {v : Value} (hv : K.Value h v) :
    K.Keeps h (fun _ _ => True) (showWith F depth busy v) (showWith F' depth busy v) := by
  induction depth generalizing h busy v with
  | zero => exact Keeps.exhaust
  | succ depth ih =>
    cases v with
    | nil | flag b | text s | function f => exact Keeps.pure trivial
    | number n =>
      simp only [showWith]
      split
      · exact Keeps.pure trivial
      · exact Keeps.accident _
    | list i items =>
      simp only [showWith]
      split
      · exact Keeps.pure trivial
      · refine Keeps.bind (Keeps.each id (fun hx => ?_) hv) fun _ _ _ _ => Keeps.pure trivial
        exact Keeps.bind (hF hx) fun _ _ _ hv => ih _ hv
    | record i fields =>
      simp only [showWith]
      split
      · exact Keeps.pure trivial
      · refine Keeps.bind (Keeps.each Prod.snd (fun hx => ?_) hv) fun _ _ _ _ => Keeps.pure trivial
        refine Keeps.bind (hF hx) fun _ _ _ hv => ?_
        exact Keeps.bind (ih _ hv) fun _ _ _ _ => Keeps.pure trivial

theorem displayWith_keeps (hF : ∀ {h x}, K.Slot h x → K.Keeps h K.Value (F x) (F' x)) (depth : Nat)
    {v : Value} (hv : K.Value h v) :
    K.Keeps h (fun _ _ => True) (displayWith F depth v) (displayWith F' depth v) := by
  unfold displayWith
  split
  · exact Keeps.pure trivial
  · exact showWith_keeps hF depth [] hv

end Discipline

end LazyModules.Eval
