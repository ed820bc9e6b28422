import LazyModules.Proofs.Meaning.Demands

/-!
# Expressions and what they mean

**Results.** `step_tracks`, `eval_tracks`: an expression that is evaluated by need comes to a value that means what the
expression means.
-/
namespace LazyModules.Meaning

open Engine

variable {c : Config} {w : World c}

/-! ## Operators -/

theorem World.Le.links {w' : World c} (hle : w.Le w') : (w.map.links w.Near).Le (w'.map.links w'.Near) := by
  refine ⟨?_, id, id⟩
  rintro i j ⟨o, ho, hnear, rfl⟩
  exact ⟨o, hle.map.ident ho, hle.near_iff.mpr hnear, rfl⟩

section Operators

variable (s : LazyModules.Scope) (n : Nat)

/-- Where there is an objection there is no value. -/
theorem object_tracks {o : Objection} : Tracks w World.ValueRel (Eval.object s o n) fun _ _ => failure :=
  .fail _ fun _ _ => rfl

theorem calculate_tracks (op : BinaryOp) (f : Number.Arithmetic) {x x' y y' : Number}
    (hx : (w.map.links w.Near).NumberRel x x') (hy : (w.map.links w.Near).NumberRel y y') :
    Tracks w World.ValueRel (Eval.calculate s op n f x y) fun _ _ => calculate f x' y' := by
  refine freshId_tracks.bind fun w' hle i o hid => ?_
  have hrel := Eval.Links.arithmetic_rel (L := w'.map.links w'.Near) f ⟨o, hid.1, hid.2, rfl⟩ (hx.mono hle.links)
    (hy.mono hle.links)
  generalize Number.arithmetic f i x y = r, Number.arithmetic f o.code x' y' = r' at hrel
  cases hrel with
  | ok hz => exact .pure (.number hz)
  | error f =>
    cases f with
    | _ => exact .fail _ fun _ _ => rfl

theorem joinLists_tracks (i j : Nat) {xs xs' : List LazyModules.Slot} {ys ys' : List Slot}
    (hxs : List.Forall₂ w.SlotRel xs ys) (hxs' : List.Forall₂ w.SlotRel xs' ys') :
    Tracks w World.ValueRel (Eval.joinLists i xs j xs') fun _ _ => pure (.list (ys ++ ys')) := by
  have hboth : List.Forall₂ w.SlotRel (xs ++ xs') (ys ++ ys') := List.rel_append hxs hxs'
  unfold Eval.joinLists
  cases hxs with
  | nil => exact .pure (.list j hboth)
  | @cons x y xs ys hxy hxs =>
    cases hxs' with
    | nil =>
      rw [List.append_nil] at hboth ⊢
      exact .pure (.list i hboth)
    | cons => exact .useId fun w' hle k => .pure (.list k (lasting_slotRel.forall₂.mono hle hboth))

theorem applyBinary_tracks {compare₁ : LazyModules.Value → LazyModules.Value → Action Bool}
    {compare₂ : Program → Nat → Value → Value → Course Bool}
    (hcompare : ∀ {a a' b b'}, w.ValueRel a b → w.ValueRel a' b' →
      Tracks w (fun _ => Eq) (compare₁ a a') fun P d => compare₂ P d b b') (op : BinaryOp)
    {a a' : LazyModules.Value} {b b' : Value} (hab : w.ValueRel a b) (hab' : w.ValueRel a' b') :
    Tracks w World.ValueRel (Eval.applyBinary compare₁ s op n a a') fun P d => binary (compare₂ P d) op b b' := by
  cases op
  case eq | ne =>
    refine (hcompare hab hab').bind fun w' _ x y hxy => ?_
    rw [hxy]
    exact .pure (.flag _)
  case add =>
    cases hab with
    | number hx =>
      cases hab' with
      | number hy => exact calculate_tracks s n _ _ hx hy
      | _ => exact object_tracks s n
    | text x =>
      cases hab' with
      | text y => exact .pure (.text _)
      | _ => exact object_tracks s n
    | list i hxs =>
      cases hab' with
      | list j hys => exact joinLists_tracks i j hxs hys
      | _ => exact object_tracks s n
    | _ => exact object_tracks s n
  case lt | le | gt | ge =>
    cases hab with
    | number hx =>
      cases hab' with
      | number hy =>
        simp only [Eval.applyBinary, Eval.Links.order_rel hx hy]
        exact .pure (.flag _)
      | _ => exact object_tracks s n
    | text x =>
      cases hab' with
      | text y => exact .pure (.flag _)
      | _ => exact object_tracks s n
    | _ => exact object_tracks s n
  case sub | mul | div | mod =>
    cases hab with
    | number hx =>
      cases hab' with
      | number hy => exact calculate_tracks s n _ _ hx hy
      | _ => exact object_tracks s n
    | _ => exact object_tracks s n

theorem applyUnary_tracks (op : UnaryOp) {a : LazyModules.Value} {b : Value} (hab : w.ValueRel a b) :
    Tracks w World.ValueRel (Eval.applyUnary s op n a) fun _ _ => unary op b := by
  cases op with
  | neg =>
    cases hab with
    | number hx =>
      refine freshId_tracks.bind fun w' hle i o hid => .pure (.number ?_)
      exact Eval.Links.negate_rel (L := w'.map.links w'.Near) ⟨o, hid.1, hid.2, rfl⟩ (hx.mono hle.links)
    | _ => exact object_tracks s n
  | not =>
    cases hab with
    | flag b => exact .pure (.flag _)
    | _ => exact object_tracks s n

end Operators

/-! ## Containers -/

section Containers

variable {force₁ : LazyModules.Slot → Action LazyModules.Value} {force₂ : Program → Nat → Slot → Course Value}
  (hforce : ∀ {x y}, w.SlotRel x y → Tracks w World.ValueRel (force₁ x) fun P d => force₂ P d y)
  (s : LazyModules.Scope) (n : Nat)

theorem beyond_tracks (a : LazyModules.Value) (i : Int) (k : Nat) {y : Family Value}
    (hy : ∀ P d, y P d w.place = none) : Tracks w World.ValueRel (Eval.beyond s n a i k) y := by
  unfold Eval.beyond
  cases Number.intText i with
  | some t => exact .fail _ hy
  | none => exact .fail _ hy

theorem getElem?_slotRel {xs : List LazyModules.Slot} {ys : List Slot} (h : List.Forall₂ w.SlotRel xs ys) (i : Nat) :
    Option.Rel w.SlotRel xs[i]? ys[i]? := by
  induction h generalizing i with
  | nil => exact .none
  | cons hxy _ ih =>
    cases i with
    | zero => exact .some hxy
    | succ i => exact ih i

include hforce

theorem applySubscript_tracks {a a' : LazyModules.Value} {b b' : Value} (hab : w.ValueRel a b)
    (hab' : w.ValueRel a' b') :
    Tracks w World.ValueRel (Eval.applySubscript force₁ s n a a') fun P d => subscript (force₂ P d) b b' := by
  cases hab with
  | @list i xs ys hxs =>
    cases hab' with
    | number hn =>
      cases hn with
      | int k =>
        have hplace : Option.Rel w.SlotRel ((Eval.place? ys.length k).bind (xs[·]?))
            ((Eval.place? ys.length k).bind (ys[·]?)) := by
          cases Eval.place? ys.length k with
          | none => exact .none
          | some k => exact getElem?_slotRel hxs k
        simp only [Eval.applySubscript, subscript, hxs.length_eq]
        generalize (Eval.place? ys.length k).bind (xs[·]?) = x, (Eval.place? ys.length k).bind (ys[·]?) = y at hplace
        cases hplace with
        | some hxy => exact hforce hxy
        | none => exact beyond_tracks s n _ k _ fun _ _ => rfl
      | _ => exact object_tracks s n
    | _ => exact object_tracks s n
  | text x =>
    cases hab' with
    | number hn =>
      cases hn with
      | int k =>
        simp only [Eval.applySubscript, subscript]
        cases (Eval.place? x.length k).bind (x.toList[·]?) with
        | some c => exact .pure (.text _)
        | none => exact beyond_tracks s n _ k _ fun _ _ => rfl
      | _ => exact object_tracks s n
    | _ => exact object_tracks s n
  | @record i xs ys hxs =>
    cases hab' with
    | text key =>
      have hfind := Table.find?_rel hxs key
      simp only [Eval.applySubscript, subscript]
      generalize Table.find? xs key = x, Table.find? ys key = y at hfind
      cases hfind with
      | some hxy => exact hforce hxy
      | none => exact object_tracks s n
    | _ => exact object_tracks s n
  | _ => exact object_tracks s n

theorem applyField_tracks (key : String) {a : LazyModules.Value} {b : Value} (hab : w.ValueRel a b) :
    Tracks w World.ValueRel (Eval.applyField force₁ s key n a) fun P d => field (force₂ P d) key b := by
  cases hab with
  | @record i xs ys hxs =>
    have hfind := Table.find?_rel hxs key
    simp only [Eval.applyField, field]
    generalize Table.find? xs key = x, Table.find? ys key = y at hfind
    cases hfind with
    | some hxy => exact hforce hxy
    | none => exact object_tracks s n
  | _ => exact object_tracks s n

end Containers

/-! ## Names and calls -/

section Calls

variable {load : Eval.Loader Session} {ev : Eval.Evaluator Session} {s : LazyModules.Scope} {t : Scope}

/-- What a name stands for is found and brought to its value. -/
theorem lookup_tracks (hload : LoadTracks c load) (hev : EvalTracks c ev) (hs : w.ScopeRel s t) (name : String)
    (n : Nat) :
    Tracks w World.ValueRel (Eval.find s name n >>= Eval.lookWith (Eval.forceWith load ev) s name) fun P d =>
      match t.lookup P name with
      | some x => answer P d (.slot x)
      | none => failure := by
  obtain ⟨found, hfound, hrel⟩ := (w.valid.scope_suits hs.1).lookup name
  generalize hlookup : s.lookup? w.heap.rest.frames name = b at hrel
  cases hrel with
  | none =>
    have hnone : Tracks w World.ValueRel (Eval.find s name n >>= Eval.lookWith (Eval.forceWith load ev) s name)
        fun _ _ => failure := by
      refine ⟨.error (.at s.address (.undefinedName name (s.names w.heap.rest.frames))), w, ?_, .refl w,
        .doomed (fun _ => nofun) fun _ _ _ => nofun⟩
      simp only [Eval.find, bind, Computation.bind, Eval.frames, hlookup]
      rfl
    exact hnone.of_eq fun P hP d => by rw [hfound hP]
  | @some _ y hxy =>
    obtain ⟨x, rfl, hxy⟩ := hxy
    have hy : y.All w.Near := hs.2.lookup (hfound (compat_ofLoaded c w.session))
    have hfind : Eval.find s name n w.heap = (.ok x, w.heap) := by
      simp only [Eval.find, bind, Computation.bind, Eval.frames, hlookup]
      rfl
    have hsome := Tracks.prepend (.refl w) hfind rfl rfl (lookWith_tracks hload hev s name (hxy.of_all hy))
    exact hsome.of_eq fun P hP d => by rw [hfound hP]

theorem delayAll_tracks (hs : w.ScopeRel s t) (es : List Expr) :
    Tracks w (fun w' => List.Forall₂ w'.SlotRel) (Eval.mapList (Eval.delay s) es) fun _ _ => es.mapM (delay t) := by
  have hlasting : Lasting fun (w : World c) (e e' : Expr) => e = e' ∧ w.ScopeRel s t :=
    ⟨fun hle _ _ h => ⟨h.1, hle.scopeRel h.2⟩⟩
  refine Tracks.mapList hlasting lasting_slotRel (g := fun _ _ => delay t) ?_
    (List.forall₂_same.mpr fun _ _ => ⟨rfl, hs⟩)
  rintro w' e e' ⟨rfl, hs⟩
  exact delay_tracks hs e

theorem applyCall_tracks (hev : EvalTracks c ev) (k : Nat) (hs : w.ScopeRel s t) (fn : Expr) (args : List Expr)
    (n : Nat) {a : LazyModules.Value} {b : Value} (hab : w.ValueRel a b) :
    Tracks w World.ValueRel (Eval.applyCall (Eval.walker load k ev) s fn args n a)
      fun P d => call (answer P d) t args b := by
  cases hab with
  | @function f o t' hid hscope ho hall =>
    simp only [Eval.applyCall, call]
    split
    · exact .fail _ fun _ _ => rfl
    · refine (delayAll_tracks hs args).bind fun w' hle xs ys hxs => ?_
      have hscope' := hle.map.scope hscope
      have henter := World.le_extend (w'.extension_frame hscope' f.params hxs) fun _ _ => rfl
      refine .prepend henter (Eval.enter_eq f.scope _ _) rfl rfl ?_
      refine hev _ f.body _ _ ⟨.inr ⟨rfl, rfl⟩, ?_⟩
      refine Scope.All.enter (hall.imp fun o ho => henter.near_iff.mpr (hle.near_iff.mpr ho)) fun b hb => ?_
      have hnear := List.forall₂_same.mp (forall₂_right (fun _ _ => SlotRel.all) hxs) b.2 (List.of_mem_zip hb).2
      exact hnear.imp fun _ => henter.near_iff.mpr
  | _ => exact .fail _ fun _ _ => rfl

end Calls

/-! ## Expressions -/

section Steps

variable {load : Eval.Loader Session} {ev : Eval.Evaluator Session} {s : LazyModules.Scope} {t : Scope}

/-- An expression means what it comes to, if that is so for everything inside it. -/
theorem step_tracks (hload : LoadTracks c load) (hev : EvalTracks c ev) (k : Nat) (hs : w.ScopeRel s t) (e : Expr) :
    Tracks w World.ValueRel (Eval.step (Eval.walker load k ev) e s) fun P d => step P (answer P d) d e t := by
  have hforce {w : World c} {x : LazyModules.Slot} {y : Slot} (hxy : w.SlotRel x y) :
      Tracks w World.ValueRel (Eval.forceWith load ev x) fun P d => answer P d (.slot y) :=
    forceWith_tracks hload hev hxy
  have hstrict {w' : World c} (hle : w.Le w') (e : Expr) :
      Tracks w' World.ValueRel (ev e s) fun P d => answer P d (.expr e t) := hev w' e s t (hle.scopeRel hs)
  cases e with
  | literal k n => exact .pure (valueRel_constant k)
  | lookup name n => exact lookup_tracks hload hev hs name n
  | lambda params body n =>
    refine freshId_tracks.bind fun w' hle i o hid => .pure ?_
    exact .function (f := ⟨i, params, body, s⟩) hid.1 (hle.scopeRel hs).1 hid.2 (hle.scopeRel hs).2
  | binary lhs op rhs n =>
    refine (hstrict (.refl w) lhs).bind fun w₁ hle₁ a b hab => ?_
    refine (hstrict hle₁ rhs).bind fun w₂ hle₂ a' b' hab' => ?_
    exact applyBinary_tracks s n (fun h h' => compareWith_tracks hforce k h h') op (hle₂.valueRel hab) hab'
  | shortcut lhs op rhs n =>
    refine (hstrict (.refl w) lhs).bind fun w₁ hle₁ a b hab => ?_
    cases hab with
    | flag a =>
      by_cases hsettles : a = Eval.settles op
      · simp only [hsettles, if_true]
        exact .pure (.flag _)
      · simp only [hsettles, if_false]
        refine (hstrict hle₁ rhs).bind fun w₂ hle₂ a' b' hab' => ?_
        cases hab' with
        | flag b => exact .pure (.flag b)
        | _ => exact .fail _ fun _ _ => rfl
    | _ => exact .fail _ fun _ _ => rfl
  | unary op arg n => exact (hstrict (.refl w) arg).bind fun w₁ _ a b hab => applyUnary_tracks s n op hab
  | cond test yes no n =>
    refine (hstrict (.refl w) test).bind fun w₁ hle₁ a b hab => ?_
    cases hab with
    | flag b =>
      cases b with
      | true => exact hstrict hle₁ yes
      | false => exact hstrict hle₁ no
    | _ => exact .fail _ fun _ _ => rfl
  | call fn args n =>
    refine (hstrict (.refl w) fn).bind fun w₁ hle₁ a b hab => ?_
    exact applyCall_tracks hev k (hle₁.scopeRel hs) fn args n hab
  | field lhs name n =>
    refine (hstrict (.refl w) lhs).bind fun w₁ _ a b hab => ?_
    exact applyField_tracks hforce s n name hab
  | subscript lhs index n =>
    refine (hstrict (.refl w) lhs).bind fun w₁ hle₁ a b hab => ?_
    refine (hstrict hle₁ index).bind fun w₂ hle₂ a' b' hab' => ?_
    exact applySubscript_tracks hforce s n (hle₂.valueRel hab) hab'
  | list elements n =>
    refine (delayAll_tracks hs elements).bind fun w₁ _ xs ys hxs => ?_
    exact .useId fun w₂ hle₂ i => .pure (.list i (lasting_slotRel.forall₂.mono hle₂ hxs))
  | record fields n =>
    refine (delayFields_tracks hs fields .nil).bind fun w₁ _ xs ys hxs => ?_
    exact .useId fun w₂ hle₂ i => .pure (.record i (lasting_slotRel.entry.forall₂.mono hle₂ hxs))

theorem eval_tracks (hload : LoadTracks c load) (depth : Nat) : EvalTracks c (Eval.eval load depth) := by
  induction depth with
  | zero => exact fun w e s t _ => .exhaust
  | succ depth ih =>
    exact fun w e s t hs => .later (step_tracks hload ih depth hs e) (fun _ => rfl) fun _ _ => rfl

end Steps

end LazyModules.Meaning
