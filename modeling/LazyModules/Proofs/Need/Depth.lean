import LazyModules.Proofs.Need.Reference
import LazyModules.Proofs.Walk.Correspondence

/-!
# More depth changes nothing

An evaluation that comes to an end within some depth comes to the same end within any larger one, by need
and by name. By name it also makes no difference if more comparisons are allowed.

**Results.** `eval_converges`, `byName_converges`.
-/
namespace LazyModules.Eval

variable {σ : Type}

/-! ## Everything corresponds to itself -/

def oneHeap (σ : Type) : Worlds (Heap σ) (Heap σ) Trouble where
  World := Heap σ
  left := id
  right := id
  le _ _ := True
  total := False
  heeds := True
  admits _ := True
  le_refl _ := trivial
  le_trans _ _ := trivial

theorem follows_self {α : Type} (m : Heap σ) (c : Eval σ α) :
    (oneHeap σ).Follows m (fun _ => Eq) c fun _ => c := by
  rintro o s hc -
  refine ⟨s, trivial, rfl, o, ?_, 0, fun _ _ => hc⟩
  cases o with
  | ok a => exact .ok rfl
  | error e => exact .error e trivial
  | exhausted => exact .exhausted

/-- What a family of computations comes to in the end. -/
def Converges {α : Type} (c : Nat → Eval σ α) (m : Heap σ) (r : Outcome Trouble α × Heap σ) : Prop :=
  ∃ n, ∀ d ≥ n, c d m = r

theorem Converges.unique {α : Type} {c : Nat → Eval σ α} {m : Heap σ} {r r' : Outcome Trouble α × Heap σ}
    (h : Converges c m r) (h' : Converges c m r') : r = r' := by
  obtain ⟨n, hn⟩ := h
  obtain ⟨n', hn'⟩ := h'
  rw [← hn (max n n') (Nat.le_max_left _ _), hn' (max n n') (Nat.le_max_right _ _)]

theorem converges_of_follows {α : Type} {c : Eval σ α} {c' : Nat → Eval σ α} {m m' : Heap σ}
    {o : Outcome Trouble α} (h : (oneHeap σ).Follows m (fun _ => Eq) c c') (hc : c m = (o, m'))
    (ho : o ≠ .exhausted) : Converges c' m (o, m') := by
  obtain ⟨w, -, rfl, o', hrel, n, hn⟩ := h o m' hc (Worlds.minds_of_ne _ trivial ho)
  obtain rfl : o = o' := by
    cases hrel with
    | ok h => rw [h]
    | error e _ => rfl
    | exhausted => rfl
  exact ⟨n, hn⟩

def oneWalk (σ : Type) : Correspondence σ σ where
  toWorlds := oneHeap σ
  links _ := Links.self
  visit _ e e' s t := e = e' ∧ s = t
  links_mono _ := ⟨id, id, id⟩
  visit_mono _ h := h
  admits_of_not _ := trivial
  address h := by rw [h.2]
  same h _ := h.1
  like := by rintro _ _ _ _ _ ⟨rfl, h⟩; exact .self fun _ _ => ⟨rfl, h⟩
  visit_lambda := by rintro _ _ _ _ _ _ _ _ _ _ ⟨⟨⟩, rfl⟩ rfl; rfl
  closure_id := by rintro _ _ _ rfl; rfl
  params := by rintro _ _ _ rfl; rfl
  freshId w := follows_self w freshId
  find := by
    rintro w name n _ s _ ⟨⟨⟩, rfl⟩
    refine (follows_self w _).imp fun _ _ x y hxy => ?_
    change Links.self.SlotRel x y
    rw [Links.slotRel_self, hxy]
  enter := by
    rintro w f _ xs ys rfl hxs -
    change List.Forall₂ Links.self.SlotRel xs ys at hxs
    rw [Links.slotRel_self, List.forall₂_eq_eq_eq] at hxs
    rw [hxs]
    exact (follows_self w _).imp fun _ _ _ _ h => ⟨rfl, h⟩

theorem slotRel_oneWalk {m : Heap σ} {x y : Slot} : (oneWalk σ).SlotRel m x y ↔ x = y :=
  iff_of_eq (congrFun (congrFun Links.slotRel_self x) y)

theorem valueRel_oneWalk {m : Heap σ} {a b : Value} : (oneWalk σ).ValueRel m a b ↔ a = b :=
  iff_of_eq (congrFun (congrFun Links.valueRel_self a) b)

theorem oneWalk_follows_self (m : Heap σ) (c : Eval σ Value) :
    (oneWalk σ).Follows m (oneWalk σ).ValueRel c fun _ => c :=
  (follows_self m c).imp fun _ _ _ _ h => valueRel_oneWalk.mpr h

theorem delay_oneWalk {m : Heap σ} {e e' : Expr} {s t : Scope} (h : (oneWalk σ).visit m e e' s t) :
    (oneWalk σ).Follows m (oneWalk σ).SlotRel (delay s e) fun _ => delay t e' := by
  rw [h.1, h.2]
  exact (follows_self m _).imp fun _ _ _ _ h => slotRel_oneWalk.mpr h

/-- The depth that is left inside an expression goes on and on. -/
theorem exists_le_pred (n : Nat) : ∃ k, ∀ d ≥ k, n ≤ d - 1 := ⟨n + 1, fun d hd => by omega⟩

theorem exists_depth (n : Nat) : ∃ k, ∀ d ≥ k, n ≤ d - 1 ∧ ((oneWalk σ).total → d - 1 = n) :=
  ⟨n + 1, fun d hd => ⟨by omega, False.elim⟩⟩

/-! ## By need -/

section ByNeed

variable (load : Loader σ) {ev : Evaluator σ} {ev' : Nat → Evaluator σ}

theorem forceWith_oneWalk
    (hev : ∀ m e s, (oneWalk σ).Follows m (oneWalk σ).ValueRel (ev e s) fun d => ev' d e s) {m : Heap σ}
    {x y : Slot} (h : (oneWalk σ).SlotRel m x y) :
    (oneWalk σ).Follows m (oneWalk σ).ValueRel (forceWith load ev x) fun d => forceWith load (ev' d) y := by
  obtain rfl := slotRel_oneWalk.mp h
  have hjob (job : Job) (m : Heap σ) : (oneWalk σ).Follows m (oneWalk σ).ValueRel (runJob load ev job)
      fun d => runJob load (ev' d) job := by
    cases job with
    | expr e s => exact hev m e s
    | load importer name target => exact oneWalk_follows_self m _
  cases x with
  | constant c => exact Worlds.Follows.pure (valueRel_oneWalk.mpr rfl)
  | closure f => exact Worlds.Follows.pure (valueRel_oneWalk.mpr rfl)
  | cell i =>
    refine Correspondence.demand_follows trivial ?_
    match hcell : m.cells[i]? with
    | none => exact .missing hcell hcell
    | some (.done _ v) => exact .done hcell hcell (valueRel_oneWalk.mpr rfl)
    | some (.busy _) => exact .busy hcell hcell
    | some (.waiting job) =>
      refine .waiting (m.setCell i (.busy job)) hcell hcell rfl rfl (hjob job _) ?_ ?_
      · intro v _ a b hab
        obtain rfl := valueRel_oneWalk.mp hab
        exact ⟨Machine.setCell v i (.done job a), trivial, rfl, rfl, hab⟩
      · intro v _
        exact ⟨Machine.setCell v i (.waiting job), trivial, rfl, rfl⟩

theorem lookWith_oneWalk {F : Slot → Eval σ Value} {F' : Nat → Slot → Eval σ Value}
    (hF : ∀ {m x y}, (oneWalk σ).SlotRel m x y →
      (oneWalk σ).Follows m (oneWalk σ).ValueRel (F x) fun d => F' d y)
    {m : Heap σ} (s : Scope) (name : String) {x y : Slot} (h : (oneWalk σ).SlotRel m x y) :
    (oneWalk σ).Follows m (oneWalk σ).ValueRel (lookWith F s name x) fun d => lookWith (F' d) s name y := by
  obtain rfl := slotRel_oneWalk.mp h
  cases x with
  | constant c => exact hF h
  | closure f => exact hF h
  | cell i =>
    refine Worlds.Follows.bind (follows_self m (Machine.isBusy i)) fun m' _ b _ hb => ?_
    subst hb
    cases b with
    | true => exact Worlds.Follows.fail trivial
    | false => exact hF (slotRel_oneWalk.mpr rfl)

theorem eval_oneWalk (n : Nat) (m : Heap σ) (e : Expr) (s : Scope) :
    (oneWalk σ).Follows m (oneWalk σ).ValueRel (eval load n e s) fun d => eval load d e s := by
  induction n generalizing m e s with
  | zero => exact Worlds.Follows.of_exhaust id
  | succ n ih =>
    have hev (m : Heap σ) (e : Expr) (s : Scope) := (ih m e s).reindex exists_le_pred
    have hforce {m : Heap σ} {x y : Slot} (h : (oneWalk σ).SlotRel m x y) := forceWith_oneWalk load hev h
    have hdepth := exists_depth (σ := σ) n
    have hrespects : (oneWalk σ).Respects (walker load n (eval load n)) fun d =>
        walker load (d - 1) (eval load (d - 1)) :=
      { strict := by rintro m e _ s _ ⟨rfl, rfl⟩; exact hev m e s
        delay := delay_oneWalk
        force := hforce
        look := by rintro m name _ _ s _ x y ⟨-, rfl⟩ hxy; exact lookWith_oneWalk hforce s name hxy
        compare := Correspondence.compareWith_follows (Correspondence.blind_self fun h => h)
          (fun hx hy => by rw [hx, hy]) hforce n hdepth }
    refine (Correspondence.step_follows (w := m) hrespects ⟨rfl, rfl⟩).congr 1 fun d hd => ?_
    obtain ⟨d, rfl⟩ : ∃ k, d = k + 1 := ⟨d - 1, by omega⟩
    rfl

/-- Evaluation by need that comes to an end comes to the same end whatever more depth it is given. -/
theorem eval_converges {n : Nat} {m m' : Heap σ} {e : Expr} {s : Scope} {o : Outcome Trouble Value}
    (h : eval load n e s m = (o, m')) (ho : o ≠ .exhausted) :
    Converges (fun d => eval load d e s) m (o, m') := by
  have heval := (eval_oneWalk load n m e s).imp (fun _ _ _ _ h => valueRel_oneWalk.mp h)
  exact converges_of_follows heval h ho

end ByNeed

/-! ## By name -/

section Forgetful

open Worlds Correspondence

variable {τ : Type} {K : Correspondence σ τ} {w : K.World} {ev : Evaluator σ} {ev' : Nat → Evaluator τ}
  {allowed allowed' : Tree → Tree → Bool}

/-- A demand by name evaluates the expressions that two cells were made for. -/
theorem forceAgain_follows {i j : Nat} {e : Expr} {s t : Scope}
    (hi : Heap.job? (K.left w) i = some (.expr e s)) (hj : Heap.job? (K.right w) j = some (.expr e t))
    (h : K.Follows w K.ValueRel (ev e s) fun d => ev' d e t) :
    K.Follows w K.ValueRel (forceAgain ev (.cell i)) fun d => forceAgain (ev' d) (.cell j) := by
  intro o m hc ht
  simp only [forceAgain, hi] at hc
  obtain ⟨w', hw, hm, o', ho, n, hd⟩ := h o m hc ht
  exact ⟨w', hw, hm, o', ho, n, fun d hd' => by simp only [forceAgain, hj, hd d hd']⟩

/-- Comparisons by name have the same answer, and are refused together, if they come out the same on trees
that look alike. -/
theorem compareAgain_follows {R : K.World → Tree → Tree → Prop} (hR : Blind K R)
    (hsame : ∀ {w x x' y y'}, R w x x' → R w y y' → allowed x y = true →
      allowed' x' y' = true ∧ x.equal y = x'.equal y')
    (hrefuse : K.total → ∀ {w x x' y y'}, R w x x' → R w y y' → allowed x y = false → allowed' x' y' = false)
    (hforce : ∀ {w x y}, K.SlotRel w x y →
      K.Follows w K.ValueRel (forceAgain ev x) fun d => forceAgain (ev' d) y)
    (n : Nat) {D : Nat → Nat} (hD : ∃ k, ∀ d ≥ k, n ≤ D d ∧ (K.total → D d = n)) {a a' b b' : Value}
    (ha : K.ValueRel w a a') (hb : K.ValueRel w b b') :
    K.Follows w (fun _ => Eq) (compareAgain allowed ev n a b) fun d =>
      compareAgain allowed' (ev' d) (D d) a' b' := by
  refine compare_follows hR hforce n hD (fun {w x x' y y'} hx hy => ?_) ha hb
  cases hxy : allowed x y with
  | true =>
    obtain ⟨hallowed, hequal⟩ := hsame hx hy hxy
    rw [hallowed, hequal]
    exact Follows.pure rfl
  | false =>
    by_cases ht : K.total
    · rw [hrefuse ht hx hy hxy]
      exact Follows.exhaust
    · exact Follows.of_exhaust ht

end Forgetful

section ByName

variable {allowed allowed' : Tree → Tree → Bool}

theorem forceAgain_oneWalk {ev : Evaluator σ} {ev' : Nat → Evaluator σ}
    (hev : ∀ m e s, (oneWalk σ).Follows m (oneWalk σ).ValueRel (ev e s) fun d => ev' d e s) {m : Heap σ}
    {x y : Slot} (h : (oneWalk σ).SlotRel m x y) :
    (oneWalk σ).Follows m (oneWalk σ).ValueRel (forceAgain ev x) fun d => forceAgain (ev' d) y := by
  obtain rfl := slotRel_oneWalk.mp h
  cases x with
  | constant c => exact Worlds.Follows.pure (valueRel_oneWalk.mpr rfl)
  | closure f => exact Worlds.Follows.pure (valueRel_oneWalk.mpr rfl)
  | cell i =>
    match hjob : Heap.job? m i with
    | some (.expr e s) => exact forceAgain_follows hjob hjob (hev m e s)
    | none | some (.load _ _ _) =>
      intro o m' hc ht
      have hexhausted : forceAgain ev (.cell i) m = (.exhausted, m) := by simp only [forceAgain, hjob]
      have ho : Outcome.exhausted = o := congrArg Prod.fst (hexhausted.symm.trans hc)
      exact absurd ho.symm (Worlds.ne_of_minds _ id ht)

theorem byName_oneWalk (hallowed : ∀ x y, allowed x y = true → allowed' x y = true) (n : Nat) (m : Heap σ)
    (e : Expr) (s : Scope) :
    (oneWalk σ).Follows m (oneWalk σ).ValueRel (byName allowed n e s) fun d => byName allowed' d e s := by
  induction n generalizing m e s with
  | zero => exact Worlds.Follows.of_exhaust id
  | succ n ih =>
    have hev (m : Heap σ) (e : Expr) (s : Scope) := (ih m e s).reindex exists_le_pred
    have hforce {m : Heap σ} {x y : Slot} (h : (oneWalk σ).SlotRel m x y) := forceAgain_oneWalk hev h
    have hdepth := exists_depth (σ := σ) n
    have hself : Correspondence.Blind (oneWalk σ) fun _ => Eq := Correspondence.blind_self fun h => h
    have hrespects : (oneWalk σ).Respects (forgetful allowed n (byName allowed n)) fun d =>
        forgetful allowed' (d - 1) (byName allowed' (d - 1)) :=
      { strict := by rintro m e _ s _ ⟨rfl, rfl⟩; exact hev m e s
        delay := delay_oneWalk
        force := hforce
        look := by rintro m name _ _ s _ x y ⟨-, rfl⟩ hxy; exact hforce hxy
        compare := fun ha hb =>
          compareAgain_follows hself (fun hx hy hxy => ⟨hx ▸ hy ▸ hallowed _ _ hxy, hx ▸ hy ▸ rfl⟩)
            False.elim hforce n hdepth ha hb }
    refine (Correspondence.step_follows (w := m) hrespects ⟨rfl, rfl⟩).congr 1 fun d hd => ?_
    obtain ⟨d, rfl⟩ : ∃ k, d = k + 1 := ⟨d - 1, by omega⟩
    rfl

/-- Evaluation by name that comes to an end comes to the same end whatever more depth it is given, and
whatever more comparisons are allowed. -/
theorem byName_converges (hallowed : ∀ x y, allowed x y = true → allowed' x y = true) {n : Nat}
    {m m' : Heap σ} {e : Expr} {s : Scope} {o : Outcome Trouble Value}
    (h : byName allowed n e s m = (o, m')) (ho : o ≠ .exhausted) :
    Converges (fun d => byName allowed' d e s) m (o, m') := by
  have heval := (byName_oneWalk hallowed n m e s).imp (fun _ _ _ _ h => valueRel_oneWalk.mp h)
  exact converges_of_follows heval h ho

/-- All evaluations by name that come to an end come to the same one. -/
theorem byName_unique {k k' : Nat} {m m₁ m₂ : Heap σ} {e : Expr} {s : Scope} {o o' : Outcome Trouble Value}
    (h : byName allowed k e s m = (o, m₁)) (ho : o ≠ .exhausted) (h' : byName allowed k' e s m = (o', m₂))
    (ho' : o' ≠ .exhausted) : o = o' ∧ m₁ = m₂ :=
  Prod.mk.inj ((byName_converges (fun _ _ => id) h ho).unique (byName_converges (fun _ _ => id) h' ho'))

end ByName

end LazyModules.Eval
