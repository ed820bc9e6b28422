import Mathlib.Data.Nat.Find
import LazyModules.Proofs.Need.Faithful

/-!
# Evaluation by need agrees with evaluation by name

By name on the left, by need on the right, in twins of which the right one is faithful within the depth of the evaluation
by name. The induction is on that depth. A cell that waits is run within the least depth within which its expression comes
to an end by name: within less it comes to nothing, so the heap is faithful also while the cell is busy, and a demand that
meets the cell again would not come to an end by name either.

**Results.**
* `run_waiting`: a cell that waits comes to the end that its expression comes to by name.
* `not_busy`: a cell whose expression comes to an end by name is not under way.
* `followed`: whatever comes to an end by name within some depth comes to a corresponding end by need.
-/
namespace LazyModules.Eval

variable {σ : Type} {B C : Nat → Nat → Prop} {s t : Scope}

/-! ## By name on the left, by need on the right -/

/-- Twins of which the right one is faithful. -/
structure NeedWorld (σ : Type) (k : Nat) extends TwinWorld σ σ where
  faithful : Faithful k right

/-- Later on, no cell is busy that has not been so before. -/
structure NeedWorld.Le {k : Nat} (u w : NeedWorld σ k) : Prop extends
    TwinWorld.Le u.toTwinWorld w.toTwinWorld where
  busy : ∀ (i : Nat) job, w.right.cells[i]? = some (.busy job) → u.right.cells[i]? = some (.busy job)

/-- What corresponds by name and by need. -/
def needRelations (σ : Type) (k : Nat) : Relations σ σ where
  World := NeedWorld σ k
  left w := w.left
  right w := w.right
  le := NeedWorld.Le
  total := False
  heeds := True
  admits _ := True
  le_refl _ := ⟨⟨fun _ _ => id, .refl _, .refl _⟩, fun _ _ => id⟩
  le_trans h h' := ⟨(twinRelations σ σ).le_trans h.toLe h'.toLe, fun i job hi => h.busy i job (h'.busy i job hi)⟩
  links w := twinLinks w.B w.left w.right
  visit w e e' s t := e = e' ∧ ScopeRel w.B s t
  links_mono h := twinLinks_le h.related h.left h.right
  visit_mono h hst := ⟨hst.1, hst.2.imp h.related⟩
  admits_of_not _ := trivial

def needWalk (σ : Type) (k : Nat) : Correspondence σ σ where
  toRelations := needRelations σ k
  address h := h.2.1
  same h _ := h.1
  like := by rintro _ _ _ _ _ ⟨rfl, h⟩; exact .self fun _ _ => ⟨rfl, h⟩
  visit_lambda := by rintro _ _ _ _ _ _ _ _ _ _ ⟨⟨⟩, h⟩ -; exact ⟨rfl, rfl, h⟩
  closure_id _ := trivial
  params h := h.1
  freshId w := by
    let u : NeedWorld σ k :=
      ⟨⟨w.left.useId, w.right.useId, w.B, w.twin.grow (.useId _) (.useId _)⟩, w.faithful.useId⟩
    have hu : w.Le u := ⟨⟨fun _ _ => id, .useId _, .useId _⟩, fun _ _ => id⟩
    exact Worlds.Follows.move (u := u) hu rfl (fun _ => rfl) trivial
  find := by
    rintro w name n _ s t ⟨⟨⟩, h⟩
    exact Relations.find_follows (needRelations σ k) (w := w) h.1
      (Scope.lookup?_rel w.twin.frame h.2 name) fun _ => ⟨Scope.names_rel w.twin.frame h.2, rfl⟩
  enter := by
    rintro w f g xs ys ⟨hparams, hbody, hst⟩ hxs -
    have hframe := callFrame_rel f.params hxs
    let u : NeedWorld σ k :=
      ⟨⟨_, _, _, w.twin.pushFrame hframe⟩, w.faithful.pushFrame (hframe.right.mono w.twin.right_le)⟩
    have hu : w.Le u := ⟨⟨fun _ _ => .inl, .pushFrame _ _, .pushFrame _ _⟩, fun _ _ => id⟩
    rw [← hparams]
    refine Worlds.Follows.move (u := u) hu (enter_eq _ _ _) (fun _ => enter_eq _ _ _) ?_
    exact ⟨hbody, hst.1, .cons (.inr ⟨rfl, rfl⟩) (hst.imp fun _ _ => .inl).2⟩

theorem delay_needWalk {k : Nat} {w : NeedWorld σ k} {e e' : Expr} (hvisit : (needWalk σ k).visit w e e' s t) :
    (needWalk σ k).Follows w (needWalk σ k).SlotRel (delay s e) fun _ => delay t e' := by
  refine Correspondence.delay_follows (K := needWalk σ k) (w := w) hvisit ?_
  obtain ⟨rfl, h⟩ := hvisit
  let u : NeedWorld σ k :=
    ⟨⟨_, _, w.B, w.twin.grow (.pushCell _ (.expr e s)) (.pushCell _ (.expr e t))⟩,
      w.faithful.pushCell e (w.twin.right_scope h)⟩
  have hbusy (i : Nat) (job : Job) (hi : u.right.cells[i]? = some (.busy job)) :
      w.right.cells[i]? = some (.busy job) := by
    rcases Heap.getElem?_pushCell hi with hold | hnew
    · exact hold
    · cases hnew
  exact ⟨u, ⟨⟨fun _ _ => id, .pushCell _ _, .pushCell _ _⟩, hbusy⟩, rfl, rfl,
    e, s, t, Heap.job?_pushCell_size _ _, Heap.job?_pushCell_size _ _, h⟩

/-- What comes to an end by name within the depth `k` comes to a corresponding end by need. -/
def Followed (load : Loader σ) (k : Nat) : Prop :=
  ∀ (w : NeedWorld σ k) (e : Expr) (s t : Scope), ScopeRel w.B s t →
    (needWalk σ k).Follows w (needWalk σ k).ValueRel (surely k e s) fun d => eval load d e t

/-! ## A cell that waits -/

/-- The cell at `i` is for the expression `e` in `t`, and waits. -/
theorem Faithful.setBusy {k : Nat} {m : Heap σ} (h : Faithful k m) {i : Nat} {e : Expr}
    (hi : m.cells[i]? = some (.waiting (.expr e t)))
    (hend : Unending k (m.setCell i (.busy (.expr e t))) e t) :
    Faithful k (m.setCell i (.busy (.expr e t))) := by
  have hjob : Heap.job? m i = some (.expr e t) := Heap.job?_eq_some_iff.mpr ⟨_, hi, rfl⟩
  have hvalid := h.toValid.setCell (c := .busy (.expr e t)) hjob (by simp)
  refine h.of_grows (.setCell hjob) hvalid (fun j e' s' v hj => ?_) fun j e' s' hj => ?_
  · rcases Heap.getElem?_setCell hj with ⟨-, hold⟩ | ⟨-, hnew⟩
    · exact .inl hold
    · cases hnew
  · rcases Heap.getElem?_setCell hj with ⟨-, hold⟩ | ⟨-, hnew⟩
    · exact .inl hold
    · cases hnew
      exact .inr hend

/-- A job that has come to an end, in a heap that is faithful within some depth, leaves its cell so that
the heap is faithful within every depth within which it was so before. -/
theorem Faithful.settle {k k' : Nat} {m m' : Heap σ} {i : Nat} {e : Expr} {o : Outcome Trouble Value}
    (h : Faithful k m) (hi : m.cells[i]? = some (.waiting (.expr e t))) (h' : Faithful k' m')
    (hm : Grows (m.setCell i (.busy (.expr e t))) m')
    (hbusy : ∀ (j : Nat) job, m'.cells[j]? = some (.busy job) →
      (m.setCell i (.busy (.expr e t))).cells[j]? = some (.busy job))
    (hresult : ∀ v, o = .ok v → (twinLinks (Same m') m' m').ValueRel v v ∧
      Right (m'.setCell i (.done (.expr e t) v)) e t v) :
    Faithful k (m'.setCell i (.after (.expr e t) o)) ∧ Grows m (m'.setCell i (.after (.expr e t) o)) ∧
      ∀ (j : Nat) job, (m'.setCell i (.after (.expr e t) o)).cells[j]? = some (.busy job) →
        m.cells[j]? = some (.busy job) := by
  have hjob : Heap.job? m i = some (.expr e t) := Heap.job?_eq_some_iff.mpr ⟨_, hi, rfl⟩
  have hjob' : Heap.job? m' i = some (Cell.after (.expr e t) o).job :=
    (hm.job ((Grows.setCell (c := .busy (.expr e t)) hjob).job hjob)).trans
      (congrArg some (Cell.job_after _ o).symm)
  have hgrows : Grows m (m'.setCell i (.after (.expr e t) o)) :=
    ((Grows.setCell hjob).trans hm).trans (.setCell hjob')
  have hback (j : Nat) (job : Job)
      (hj : (m'.setCell i (.after (.expr e t) o)).cells[j]? = some (.busy job)) :
      m.cells[j]? = some (.busy job) := by
    rcases Heap.getElem?_setCell hj with ⟨hne, hold⟩ | ⟨-, hnew⟩
    · have := hbusy j job hold
      rwa [Heap.getElem?_setCell_ne m hne] at this
    · cases o <;> cases hnew
  have hvalid : Valid (m'.setCell i (.after (.expr e t) o)) := by
    refine h'.toValid.setCell hjob' fun job v hv => ?_
    cases o with
    | ok a =>
      cases hv
      exact (hresult v rfl).1
    | error e => cases hv
    | exhausted => cases hv
  refine ⟨h.of_grows hgrows hvalid (fun j e' s' v hj => .inr ?_) fun j e' s' hj => .inl (hback j _ hj),
    hgrows, hback⟩
  rcases Heap.getElem?_setCell hj with ⟨-, hold⟩ | ⟨-, hnew⟩
  · exact (h'.done hold).grow (.setCell hjob') h'.toValid (h'.scope_of_cell hold rfl)
  · cases o with
    | ok a =>
      cases hnew
      exact (hresult v rfl).2
    | error e => cases hnew
    | exhausted => cases hnew

/-- The least depth within which an expression comes to an end by name. -/
theorem exists_least {k : Nat} {m m' : Heap σ} {e : Expr} {o : Outcome Trouble Value}
    (h : surely k e s m = (o, m')) (ho : o ≠ .exhausted) :
    ∃ j ≤ k, surely j e s m = (o, m') ∧ Unending j m e s := by
  classical
  have hex : ∃ j, (surely j e s m).1 ≠ .exhausted := ⟨k, by rw [h]; exact ho⟩
  refine ⟨Nat.find hex, Nat.find_min' hex (by rw [h]; exact ho), ?_, fun j hj => ?_⟩
  · obtain ⟨h₁, h₂⟩ := byName_unique (k := Nat.find hex) rfl (Nat.find_spec hex) h ho
    exact Prod.ext h₁ h₂
  · exact not_not.mp (Nat.find_min hex hj)

/-- By need, the job of a cell that waits comes to an end that corresponds to the one by name. -/
theorem run_waiting {load : Loader σ} {k : Nat} (hall : ∀ j ≤ k, Followed load j) {m m' n : Heap σ}
    (hn : Faithful k n) (htwin : Twin B m n) (hst : ScopeRel B s t) {i : Nat} {e : Expr}
    (hi : n.cells[i]? = some (.waiting (.expr e t))) {o : Outcome Trouble Value}
    (hrun : surely k e s m = (o, m')) (ho : o ≠ .exhausted) :
    ∃ o' n' C, Converges (fun d => eval load d e t) (n.setCell i (.busy (.expr e t))) (o', n') ∧
      (∀ a b, B a b → C a b) ∧ Grows m m' ∧ Twin C m' (n'.setCell i (.after (.expr e t) o')) ∧
      o.Rel (twinLinks C m' (n'.setCell i (.after (.expr e t) o'))).ValueRel (fun _ => True) o' ∧
      Grows n (n'.setCell i (.after (.expr e t) o')) ∧
      (∀ (j : Nat) job, (n'.setCell i (.after (.expr e t) o')).cells[j]? = some (.busy job) →
        n.cells[j]? = some (.busy job)) ∧
      ∀ k', Faithful k' n → Faithful k' (n'.setCell i (.after (.expr e t) o')) := by
  obtain ⟨j, hjk, hj, hleast⟩ := exists_least hrun ho
  have hjob : Heap.job? n i = some (.expr e t) := Heap.job?_eq_some_iff.mpr ⟨_, hi, rfl⟩
  have hset : Grows n (n.setCell i (.busy (.expr e t))) := .setCell hjob
  have htwin₁ : Twin B m (n.setCell i (.busy (.expr e t))) := htwin.grow (.refl m) hset
  have hfaithful := (hn.mono hjk).setBusy hi (hleast.twin htwin₁ hst)
  obtain ⟨w, hw, rfl, o', hrel, hconv⟩ :=
    hall j hjk ⟨⟨m, _, B, htwin₁⟩, hfaithful⟩ e s t hst o m' hj
      (Worlds.minds_of_ne _ trivial ho)
  have hjob' : Heap.job? w.right i = some (Cell.after (.expr e t) o').job :=
    (hw.right.job (hset.job hjob)).trans (congrArg some (Cell.job_after _ o').symm)
  have hgrow : Grows w.right (w.right.setCell i (.after (.expr e t) o')) := .setCell hjob'
  have htwin₂ : Twin w.B w.left (w.right.setCell i (.after (.expr e t) o')) := w.twin.grow (.refl _) hgrow
  have hrel' := hrel.imp (fun _ _ hab => hab.mono (twinLinks_le (fun _ _ => id) (.refl _) hgrow)) fun _ => id
  have hsettle (k' : Nat) (hk' : Faithful k' n) := hk'.settle (o := o') hi w.faithful hw.right hw.busy (by
    rintro v rfl
    cases hrel with
    | @ok a _ hav =>
      refine ⟨hav.right.mono w.twin.right_le, ?_⟩
      have hall : Grows n (w.right.setCell i (.done (.expr e t) v)) := (hset.trans hw.right).trans hgrow
      exact Right.of_twin (htwin.grow (.refl m) hall) hst hrun htwin₂
        (hav.mono (twinLinks_le (fun _ _ => id) (.refl _) hgrow)))
  exact ⟨o', w.right, w.B, hconv, hw.related, hw.left, htwin₂, hrel', (hsettle k hn).2.1, (hsettle k hn).2.2,
    fun k' hk' => (hsettle k' hk').1⟩

/-! ## By need follows by name -/

def NeedWorld.weaken {j k : Nat} (w : NeedWorld σ k) (h : j ≤ k) : NeedWorld σ j :=
  ⟨w.toTwinWorld, w.faithful.mono h⟩

/-- What is followed within a depth is followed within a larger one: no cell becomes busy. -/
theorem follows_of_weaken {α β : Type} {j k : Nat} (hjk : j ≤ k) {w : NeedWorld σ k}
    {V : TwinWorld σ σ → α → β → Prop} {c : Eval σ α} {c' : Nat → Eval σ β}
    (h : (needWalk σ j).Follows (w.weaken hjk) (fun u : NeedWorld σ j => V u.toTwinWorld) c c') :
    (needWalk σ k).Follows w (fun u : NeedWorld σ k => V u.toTwinWorld) c c' := by
  intro o m hc ht
  obtain ⟨u, hu, rfl, o', ho, hconv⟩ := h o m hc ht
  have hfaithful : Faithful k u.right :=
    ⟨u.faithful.toValid, u.faithful.done, fun hi =>
      (w.faithful.busy (hu.busy _ _ hi)).twin (w.faithful.twin_grow hu.right)
        (w.faithful.scope_of_cell (hu.busy _ _ hi) rfl)⟩
  exact ⟨⟨u.toTwinWorld, hfaithful⟩, ⟨hu.toLe, hu.busy⟩, rfl, o', ho, hconv⟩

section Force

variable {load : Loader σ} {k : Nat} {w : NeedWorld σ (k + 1)} {j : Nat} {e : Expr}

/-- A cell whose expression comes to an end by name is not busy. -/
theorem not_busy (hst : ScopeRel w.B s t) {o : Outcome Trouble Value} {m : Heap σ}
    (hrun : surely k e s w.left = (o, m)) (ho : o ≠ .exhausted) :
    w.right.cells[j]? ≠ some (.busy (.expr e t)) := by
  intro hj
  obtain ⟨o', n, C, hn, -, -, -, -, hrel⟩ := byName_twin w.twin hst k e hrun
  have hexhausted := w.faithful.busy hj k (Nat.lt_succ_self k)
  rw [hn] at hexhausted
  obtain rfl : o' = .exhausted := hexhausted
  cases hrel
  exact ho rfl

/-- A demand of corresponding cells: by name the expression is evaluated again, by need at most once. -/
theorem demand_needWalk (hall : ∀ j ≤ k, Followed load j)
    (hj : Heap.job? w.right j = some (.expr e t)) (hst : ScopeRel w.B s t) {o : Outcome Trouble Value}
    {m : Heap σ} (hrun : surely k e s w.left = (o, m)) (ho : o ≠ .exhausted) :
    ∃ u, (needWalk σ (k + 1)).le w u ∧ (needWalk σ (k + 1)).left u = m ∧
      ∃ o', o.Rel ((needWalk σ (k + 1)).ValueRel u) (fun _ => True) o' ∧
        Converges (fun d => forceWith load (eval load (d - 1)) (.cell j)) w.right (o', u.right) := by
  obtain ⟨c, hc, hjob⟩ := Heap.job?_eq_some_iff.mp hj
  cases c with
  | waiting job =>
    obtain rfl : job = .expr e t := hjob
    obtain ⟨o', n, C, ⟨d₀, hd₀⟩, hC, hm, htwin, hrel, hn, hbusy, hfaithful⟩ :=
      run_waiting hall (w.faithful.mono (Nat.le_succ k)) w.twin hst hc hrun ho
    refine ⟨⟨⟨m, _, C, htwin⟩, hfaithful _ w.faithful⟩, ⟨⟨hC, hm, hn⟩, hbusy⟩, rfl, o', hrel, d₀ + 1, ?_⟩
    intro d hd
    exact demand_waiting hc (hd₀ (d - 1) (by omega))
  | busy job =>
    obtain rfl : job = .expr e t := hjob
    exact absurd hc (not_busy hst hrun ho)
  | done job v =>
    obtain rfl : job = .expr e t := hjob
    -- by name the expression comes to an end in the right heap too, where its result is remembered
    obtain ⟨o', n, C, hn, hC, hm, -, htwin, hrel⟩ := byName_twin w.twin hst k e hrun
    have ho' : o' ≠ .exhausted := by rintro rfl; cases hrel; exact ho rfl
    obtain ⟨v', D, rfl, htwin', hv'⟩ := w.faithful.done hc k o' n hn ho'
    cases hrel with
    | @ok a _ ha =>
      have hunion := (w.twin.grow hm (.refl w.right)).union (htwin.comp htwin')
      have hav := ((ha.comp hv').mono comp_twinLinks_le).mono
        (twinLinks_le (fun a b => Or.inr (a := w.B a b)) (.refl m) (.refl w.right))
      refine ⟨⟨⟨m, w.right, _, hunion⟩, w.faithful⟩, ⟨⟨fun _ _ => .inl, hm, .refl _⟩, fun _ _ => id⟩, rfl, _,
        .ok hav, 0, fun d _ => ?_⟩
      simp only [forceWith, Machine.demand, hc]

theorem forceAgain_cell {i : Nat} {m m' : Heap σ} {ev : Evaluator σ} {o : Outcome Trouble Value}
    (hi : Heap.job? m i = some (.expr e s)) (h : forceAgain ev (.cell i) m = (o, m')) :
    ev e s m = (o, m') := by
  simpa only [forceAgain, hi] using h

theorem lookWith_cell {F : Slot → Eval σ Value} {m : Heap σ} {name : String}
    (h : ∀ job, m.cells[j]? ≠ some (.busy job)) : lookWith F t name (.cell j) m = F (.cell j) m := by
  have hbusy : m.cells[j]?.any Cell.isBusy = false := by
    cases hj : m.cells[j]? with
    | none => rfl
    | some c =>
      cases c with
      | busy job => exact absurd hj (h job)
      | waiting job | done job v => rfl
  simp only [lookWith, bind, Computation.bind, Machine.isBusy, hbusy]
  rfl

theorem force_needWalk (hall : ∀ j ≤ k, Followed load j) {x y : Slot}
    (hxy : (twinLinks w.B w.left w.right).SlotRel x y) :
    (needWalk σ (k + 1)).Follows w (needWalk σ (k + 1)).ValueRel (forceAgain (surely k) x) fun d =>
      forceWith load (eval load (d - 1)) y := by
  cases hxy with
  | constant c => exact Worlds.Follows.pure (.constant c)
  | closure h => exact Worlds.Follows.pure (.function h)
  | cell h =>
    obtain ⟨e, s, t, hi, hj, hst⟩ := h
    intro o m hc hminds
    exact demand_needWalk hall hj hst (forceAgain_cell hi hc) (Worlds.ne_of_minds _ id hminds)

/-- A name never stands for a cell that is busy, if the name has a value by name. -/
theorem look_needWalk (hall : ∀ j ≤ k, Followed load j) {name : String} {x y : Slot}
    (hxy : (twinLinks w.B w.left w.right).SlotRel x y) :
    (needWalk σ (k + 1)).Follows w (needWalk σ (k + 1)).ValueRel (forceAgain (surely k) x) fun d =>
      lookWith (forceWith load (eval load (d - 1))) t name y := by
  cases hxy with
  | constant c => exact Worlds.Follows.pure (.constant c)
  | closure h => exact Worlds.Follows.pure (.function h)
  | @cell i j h =>
    obtain ⟨e, s, t', hi, hj, hst⟩ := h
    intro o m hc hminds
    have ht := Worlds.ne_of_minds _ id hminds
    have hrun := forceAgain_cell hi hc
    have hidle (job : Job) : w.right.cells[j]? ≠ some (.busy job) := by
      intro hbusy
      obtain rfl : job = .expr e t' :=
        Option.some.inj ((Heap.job?_eq_some_iff.mpr ⟨_, hbusy, rfl⟩).symm.trans hj)
      exact not_busy hst hrun ht hbusy
    obtain ⟨u, hu, hm, o', hrel, d₀, hd₀⟩ := demand_needWalk hall hj hst hrun ht
    exact ⟨u, hu, hm, o', hrel, d₀, fun d hd => (lookWith_cell hidle).trans (hd₀ d hd)⟩

theorem compare_needWalk (hall : ∀ j ≤ k, Followed load j) {a a' b b' : Value}
    (ha : (needWalk σ (k + 1)).ValueRel w a a') (hb : (needWalk σ (k + 1)).ValueRel w b b') :
    (needWalk σ (k + 1)).Follows w (fun _ => Eq) (compareAgain Tree.sure (surely k) k a b) fun d =>
      compareWith (forceWith load (eval load (d - 1))) (d - 1) a' b' := by
  refine Correspondence.compare_follows (blind_blur _) (force_needWalk hall) k
    ⟨k + 1, fun d hd => ⟨by omega, False.elim⟩⟩ (fun {w x x' y y'} hx hy => ?_) ha hb
  cases hxy : Tree.sure x y with
  | true =>
    rw [if_pos rfl, Tree.equal_congr hx hy hxy]
    exact Worlds.Follows.pure rfl
  | false => exact Worlds.Follows.of_exhaust id

end Force

/-- What comes to an end by name comes to a corresponding end by need. -/
theorem followed (load : Loader σ) (k : Nat) : Followed load k := by
  induction k using Nat.strong_induction_on with
  | _ k ih =>
  cases k with
  | zero => exact fun _ _ _ _ _ => Worlds.Follows.of_exhaust id
  | succ k =>
    have hall : ∀ j ≤ k, Followed load j := fun j hj => ih j (by omega)
    have hstrict {w : NeedWorld σ (k + 1)} {e : Expr} {s t : Scope} (h : ScopeRel w.B s t) :
        (needWalk σ (k + 1)).Follows w (needWalk σ (k + 1)).ValueRel (surely k e s) fun d =>
          eval load (d - 1) e t :=
      (follows_of_weaken (V := fun u => (twinLinks u.B u.left u.right).ValueRel) (Nat.le_succ k)
        (hall k (Nat.le_refl k) (w.weaken (Nat.le_succ k)) e s t h)).reindex exists_le_pred
    have hrespects : (needWalk σ (k + 1)).Respects (forgetful Tree.sure k (surely k)) fun d =>
        walker load (d - 1) (eval load (d - 1)) :=
      { strict := by rintro w e _ s t ⟨rfl, h⟩; exact hstrict h
        delay := delay_needWalk
        force := force_needWalk hall
        look := fun _ hxy => look_needWalk hall hxy
        compare := compare_needWalk hall }
    intro w e s t h
    refine (Correspondence.step_follows (K := needWalk σ (k + 1)) (w := w) hrespects ⟨rfl, h⟩).congr 1 fun d hd => ?_
    obtain ⟨d, rfl⟩ : ∃ k, d = k + 1 := ⟨d - 1, by omega⟩
    rfl

end LazyModules.Eval
