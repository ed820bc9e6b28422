import LazyModules.Proofs.Need.Agreement

/-!
# Evaluation keeps heaps faithful

Whatever has been evaluated by need in a heap that is faithful within every depth, the heap is so
afterwards. A cell that finishes holds what its expression comes to by name, since by need follows by name;
or its expression comes to nothing by name, and then any result is right.

**Results.** `eval_keeps`, `force_keeps`.
-/
namespace LazyModules.Eval

variable {σ : Type} {s t : Scope}

/-- A heap that is faithful within every depth. -/
structure FaithWorld (σ : Type) where
  heap : Heap σ
  faithful : ∀ k, Faithful k heap

/-- The later heap has grown from the earlier one, and has no more cells that are busy. -/
structure FaithWorld.Le (u w : FaithWorld σ) : Prop where
  grows : Grows u.heap w.heap
  busy : ∀ (i : Nat) job, w.heap.cells[i]? = some (.busy job) → u.heap.cells[i]? = some (.busy job)

theorem FaithWorld.valid (w : FaithWorld σ) : Valid w.heap := (w.faithful 0).toValid

/-- Everything that a faithful heap has room for corresponds to itself. -/
def faithRelations (σ : Type) : Relations σ σ where
  World := FaithWorld σ
  left := FaithWorld.heap
  right := FaithWorld.heap
  le := FaithWorld.Le
  total := False
  heeds := True
  admits _ := True
  le_refl _ := ⟨.refl _, fun _ _ => id⟩
  le_trans h h' := ⟨h.grows.trans h'.grows, fun i job hi => h.busy i job (h'.busy i job hi)⟩
  links w := (twinLinks (Same w.heap) w.heap w.heap).right
  visit w e e' s t := e = e' ∧ s = t ∧ ScopeRel (Same w.heap) t t
  links_mono h := Links.right_mono (same_twinLinks_le h.grows)
  visit_mono h hst := ⟨hst.1, hst.2.1, hst.2.2.imp (Same.grow h.grows)⟩
  admits_of_not _ := trivial

theorem FaithWorld.frame (w : FaithWorld σ) (a b : Nat) (h : Same w.heap a b) :
    ((faithRelations σ).links w).FrameRel (w.heap.rest.frames.frame a) (w.heap.rest.frames.frame b) := by
  obtain ⟨rfl, ha⟩ := h
  exact (w.valid.twin.frame a a ⟨rfl, ha⟩).right

def faithWalk (σ : Type) : Correspondence σ σ where
  toRelations := faithRelations σ
  address h := by rw [h.2.1]
  same h _ := h.1
  like := by rintro _ _ _ _ _ ⟨rfl, h⟩; exact .self fun _ _ => ⟨rfl, h⟩
  visit_lambda := by
    rintro w params body _ n _ s _ i _ ⟨⟨⟩, rfl, hs⟩ ⟨rfl, -⟩
    exact ⟨rfl, ⟨i, params, body, s⟩, rfl, rfl, hs⟩
  closure_id := by
    rintro w f _ ⟨rfl, -⟩
    exact ⟨rfl, 0, trivial⟩
  params h := by rw [h.1]
  freshId w := by
    let u : FaithWorld σ := ⟨w.heap.useId, fun k => (w.faithful k).useId⟩
    have hu : w.Le u := ⟨.useId _, fun _ _ => id⟩
    exact Worlds.Follows.move (u := u) hu rfl (fun _ => rfl) ⟨rfl, 0, trivial⟩
  find := by
    rintro w name n _ s _ ⟨⟨⟩, rfl, hs⟩
    exact Relations.find_follows (faithRelations σ) (w := w) rfl (Scope.lookup?_rel w.frame hs.2 name)
      fun _ => ⟨rfl, rfl⟩
  enter := by
    rintro w f _ xs ys ⟨rfl, g, -, -, hst⟩ hxs -
    have hscope : ScopeRel (Same w.heap) f.scope f.scope := w.valid.twin.right_scope hst
    obtain rfl : xs = ys := eq_of_forall₂ (fun _ _ => Links.SlotRel.eq_of_right) hxs
    have hframe := (callFrame_rel f.params hxs).mono (w.valid.twin.right_le)
    let u : FaithWorld σ := ⟨_, fun k => (w.faithful k).pushFrame hframe⟩
    have hu : w.Le u := ⟨.pushFrame _ _, fun _ _ => id⟩
    refine Worlds.Follows.move (u := u) hu (enter_eq _ _ _) (fun _ => enter_eq _ _ _) ⟨rfl, rfl, rfl, .cons ?_ ?_⟩
    · exact Same.pushFrame _ _
    · exact (hscope.imp (Same.grow (.pushFrame _ _))).2

theorem delay_faithWalk {w : FaithWorld σ} {e e' : Expr} (h : (faithWalk σ).visit w e e' s t) :
    (faithWalk σ).Follows w (faithWalk σ).SlotRel (delay s e) fun _ => delay t e' := by
  refine Correspondence.delay_follows (K := faithWalk σ) (w := w) h ?_
  obtain ⟨rfl, rfl, hs⟩ := h
  let u : FaithWorld σ := ⟨_, fun k => (w.faithful k).pushCell e hs⟩
  have hbusy (i : Nat) (job : Job) (hi : u.heap.cells[i]? = some (.busy job)) :
      w.heap.cells[i]? = some (.busy job) := by
    rcases Heap.getElem?_pushCell hi with hold | hnew
    · exact hold
    · cases hnew
  have hjob := Heap.job?_pushCell_size w.heap (.expr e s)
  exact ⟨u, ⟨.pushCell _ _, hbusy⟩, rfl, rfl, rfl, _, e, s, s, hjob, hjob, hs.imp (Same.grow (.pushCell _ _))⟩

/-! ## Cells that wait -/

section Force

variable {load : Loader σ} {n : Nat} {w : FaithWorld σ} {i : Nat} {e : Expr}

/-- An evaluation on a faithful heap leaves one. -/
def Kept (load : Loader σ) (n : Nat) : Prop :=
  ∀ (w : FaithWorld σ) (e : Expr) (s : Scope), ScopeRel (Same w.heap) s s →
    (faithWalk σ).Follows w (faithWalk σ).ValueRel (eval load n e s) fun _ => eval load n e s

/-- The job of a cell that does not come to an end by name: any end is right. -/
theorem demandable_of_unending (hkept : Kept load n) (hi : w.heap.cells[i]? = some (.waiting (.expr e t)))
    (hend : ∀ k, Unending k w.heap e t) :
    Correspondence.Demandable (K := faithWalk σ) w (runJob load (eval load n))
      (fun _ => runJob load (eval load n)) i i := by
  have hs : ScopeRel (Same w.heap) t t := w.valid.scope_of_cell hi rfl
  have hjob : Heap.job? w.heap i = some (.expr e t) := Heap.job?_eq_some_iff.mpr ⟨_, hi, rfl⟩
  have hset : Grows w.heap (w.heap.setCell i (.busy (.expr e t))) := .setCell hjob
  have hend' (k : Nat) {m : Heap σ} (hm : Grows w.heap m) : Unending k m e t :=
    (hend k).twin (w.valid.twin_grow hm) hs
  let u : FaithWorld σ := ⟨_, fun k => (w.faithful k).setBusy hi (hend' k hset)⟩
  have hsettle (v : FaithWorld σ) (hv : u.Le v) (o : Outcome Trouble Value)
      (ho : ∀ a, o = .ok a → (twinLinks (Same v.heap) v.heap v.heap).ValueRel a a) (k : Nat) :=
    (w.faithful k).settle (o := o) hi (v.faithful 0) hv.grows hv.busy fun a ha => by
      refine ⟨ho a ha, Right.of_unending fun k => hend' k ?_⟩
      have hjob' : Heap.job? v.heap i = some (.expr e t) := hv.grows.job (hset.job hjob)
      exact (hset.trans hv.grows).trans (.setCell hjob')
  have hrun : (faithWalk σ).Follows u (faithWalk σ).ValueRel (runJob load (eval load n) (.expr e t)) fun _ =>
      runJob load (eval load n) (.expr e t) := hkept u e t (hs.imp (Same.grow hset))
  refine Correspondence.Demandable.waiting (K := faithWalk σ) (w := w) u hi hi rfl rfl hrun ?_ ?_
  · intro v hv a b hab
    have hvalid : (twinLinks (Same v.heap) v.heap v.heap).ValueRel a b := hab.mono v.valid.twin.right_le
    obtain rfl : a = b := hab.eq_of_right
    have hdone := hsettle v hv (.ok a) (by rintro _ ⟨⟩; exact hvalid)
    let x : FaithWorld σ := ⟨_, fun k => (hdone k).1⟩
    have hgrows : Grows v.heap x.heap := .setCell (hv.grows.job (hset.job hjob))
    exact ⟨x, ⟨(hdone 0).2.1, (hdone 0).2.2⟩, rfl, rfl, hab.mono (Links.right_mono (same_twinLinks_le hgrows))⟩
  · intro v hv
    have hback := hsettle v hv .exhausted (by simp)
    exact ⟨⟨_, fun k => (hback k).1⟩, ⟨(hback 0).2.1, (hback 0).2.2⟩, rfl, rfl⟩

/-- The job of a cell that comes to an end by name: by need it comes to the same end. -/
theorem demand_of_ending (hi : w.heap.cells[i]? = some (.waiting (.expr e t))) {k : Nat}
    (hend : (surely k e t w.heap).1 ≠ .exhausted) :
    (faithWalk σ).Follows w (faithWalk σ).ValueRel (forceWith load (eval load n) (.cell i)) fun _ =>
      forceWith load (eval load n) (.cell i) := by
  intro o m hc ht
  have hs : ScopeRel (Same w.heap) t t := w.valid.scope_of_cell hi rfl
  obtain ⟨o', m', C, hconv, -, -, htwin, hrel, hgrows, hbusy, hfaithful⟩ :=
    run_waiting (fun j _ => followed load j) (w.faithful k) w.valid.twin hs hi rfl hend
  match hrun : eval load n e t (w.heap.setCell i (.busy (.expr e t))) with
  | (o₁, m₁) =>
    have hdemand : forceWith load (eval load n) (.cell i) w.heap = (o₁, m₁.setCell i (.after (.expr e t) o₁)) :=
      demand_waiting hi hrun
    obtain ⟨rfl, rfl⟩ := Prod.mk.inj (hdemand.symm.trans hc)
    obtain ⟨rfl, rfl⟩ := Prod.mk.inj ((eval_converges load hrun (Worlds.ne_of_minds _ id ht)).unique hconv)
    let u : FaithWorld σ := ⟨_, fun k => hfaithful k (w.faithful k)⟩
    refine ⟨u, ⟨hgrows, hbusy⟩, rfl, o₁, ?_, 0, fun _ _ => hc⟩
    generalize (surely k e t w.heap).1 = o₂ at hrel
    cases hrel with
    | ok h => exact .ok (h.right.mono htwin.right_le).right
    | error e h => exact .error e h
    | exhausted => exact .exhausted

theorem force_faithWalk (hkept : Kept load n) {x y : Slot} (hxy : (faithWalk σ).SlotRel w x y) :
    (faithWalk σ).Follows w (faithWalk σ).ValueRel (forceWith load (eval load n) x) fun _ =>
      forceWith load (eval load n) y := by
  cases hxy with
  | constant c => exact Worlds.Follows.pure (.constant c)
  | closure h => exact Worlds.Follows.pure (.function h)
  | @cell i _ h =>
    obtain ⟨rfl, j, e, s, t, -, hjob, -⟩ := h
    obtain ⟨c, hi, hc⟩ := Heap.job?_eq_some_iff.mp hjob
    cases c with
    | waiting job =>
      obtain rfl : job = .expr e t := hc
      by_cases hend : ∀ k, Unending k w.heap e t
      · exact Correspondence.demand_follows trivial (demandable_of_unending hkept hi hend)
      · simp only [Unending, not_forall] at hend
        obtain ⟨_, k, _, hend⟩ := hend
        exact demand_of_ending hi hend
    | busy job => exact Correspondence.demand_follows trivial (.busy hi hi)
    | done job v => exact Correspondence.demand_follows trivial (.done hi hi (w.valid.result hi).right)

theorem look_faithWalk (hkept : Kept load n) {name : String} {x y : Slot} (hxy : (faithWalk σ).SlotRel w x y) :
    (faithWalk σ).Follows w (faithWalk σ).ValueRel (lookWith (forceWith load (eval load n)) t name x) fun _ =>
      lookWith (forceWith load (eval load n)) t name y := by
  obtain rfl := hxy.eq_of_right
  cases x with
  | constant c => exact force_faithWalk hkept hxy
  | closure f => exact force_faithWalk hkept hxy
  | cell i =>
    have hbusy : (faithWalk σ).Follows w (fun u b b' => b = b' ∧ u = w) (Machine.isBusy i) fun _ =>
        Machine.isBusy i :=
      Worlds.Follows.move ((faithWalk σ).le_refl w) rfl (fun _ => rfl) ⟨rfl, rfl⟩
    refine Worlds.Follows.bind hbusy fun u _ b _ h => ?_
    obtain ⟨rfl, rfl⟩ := h
    cases b with
    | true => exact Worlds.Follows.fail trivial
    | false => exact force_faithWalk hkept hxy

end Force

/-- Every evaluation on a faithful heap leaves one. -/
theorem kept (load : Loader σ) (n : Nat) : Kept load n := by
  induction n with
  | zero => exact fun _ _ _ _ => Worlds.Follows.of_exhaust id
  | succ n ih =>
    have hrespects : (faithWalk σ).Respects (walker load n (eval load n)) fun _ =>
        walker load n (eval load n) :=
      { strict := by
          rintro w e _ s _ ⟨rfl, rfl, hs⟩
          exact ih w e s hs
        delay := delay_faithWalk
        force := force_faithWalk ih
        look := by
          rintro w name _ _ s _ x y ⟨-, rfl, -⟩ hxy
          exact look_faithWalk ih hxy
        compare := Correspondence.compareWith_follows (Correspondence.blind_self And.left)
          (fun hx hy => by rw [hx, hy]) (force_faithWalk ih) n ⟨0, fun _ _ => ⟨Nat.le_refl n, False.elim⟩⟩ }
    intro w e s hs
    exact Correspondence.step_follows (K := faithWalk σ) (w := w) hrespects ⟨rfl, rfl, hs⟩

section Keeps

variable {load : Loader σ} {n : Nat} {m m' : Heap σ} {o : Outcome Trouble Value}

/-- What is kept by whatever comes to an end. -/
theorem keeps_of_follows {c : Eval σ Value} (h : ∀ k, Faithful k m)
    (hc : (faithWalk σ).Follows ⟨m, h⟩ (faithWalk σ).ValueRel c fun _ => c) (hrun : c m = (o, m'))
    (ho : o ≠ .exhausted) :
    (∀ k, Faithful k m') ∧ Grows m m' ∧
      ∀ (i : Nat) job, m'.cells[i]? = some (.busy job) → m.cells[i]? = some (.busy job) := by
  obtain ⟨w, hw, rfl, -⟩ := hc o m' hrun (Worlds.minds_of_ne _ trivial ho)
  exact ⟨w.faithful, hw.grows, hw.busy⟩

theorem eval_keeps (h : ∀ k, Faithful k m) {e : Expr} (hs : ScopeRel (Same m) s s)
    (hrun : eval load n e s m = (o, m')) (ho : o ≠ .exhausted) :
    (∀ k, Faithful k m') ∧ Grows m m' ∧
      ∀ (i : Nat) job, m'.cells[i]? = some (.busy job) → m.cells[i]? = some (.busy job) :=
  keeps_of_follows h (kept load n ⟨m, h⟩ e s hs) hrun ho

theorem force_keeps (h : ∀ k, Faithful k m) {x : Slot}
    (hx : (twinLinks (Same m) m m).SlotRel x x) (hrun : force load n x m = (o, m')) (ho : o ≠ .exhausted) :
    (∀ k, Faithful k m') ∧ Grows m m' ∧
      ∀ (i : Nat) job, m'.cells[i]? = some (.busy job) → m.cells[i]? = some (.busy job) :=
  keeps_of_follows h (force_faithWalk (kept load n) hx.right) hrun ho

end Keeps

end LazyModules.Eval
