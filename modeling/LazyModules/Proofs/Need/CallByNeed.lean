import LazyModules.Proofs.Need.Upkeep

/-!
# Call by need is call by name

`Built` heaps are those that evaluation meets: cells that wait and frames are put into them, and
expressions and slots are evaluated in them, as often as one likes. In these, whatever comes to an end by
name comes to the same end by need, however much has been evaluated before.

The two differ in one thing. By need, a function that is found twice under one name is one function; by
name it is made twice, and the two are not equal. So the theorem is about evaluations in which no
comparison depends on that.

**Results.**
* `eval_agrees_byName`: the same scalar, a function with the same text, a container of the same shape with
  corresponding elements, or the same error; and a circular demand is told only where there is no end by
  name.
* `eval_differs_byName`: without the proviso on comparisons this is not so, even if nothing that is compared has an
  absence of a number in it.
-/
namespace LazyModules

/-- A scope that is about frames that are there. -/
def Scope.Within (frames : Nat) (s : Scope) : Prop := ∀ k ∈ s.frames, k < frames

def Slot.Within (cells frames : Nat) : Slot → Prop
  | .constant _ => True
  | .closure f => f.scope.Within frames
  | .cell i => i < cells

instance (frames : Nat) (s : Scope) : Decidable (s.Within frames) :=
  inferInstanceAs (Decidable (∀ k ∈ s.frames, k < frames))

instance (cells frames : Nat) : (x : Slot) → Decidable (x.Within cells frames)
  | .constant _ => inferInstanceAs (Decidable True)
  | .closure f => inferInstanceAs (Decidable (f.scope.Within frames))
  | .cell i => inferInstanceAs (Decidable (i < cells))

variable {σ : Type}

/-- A heap with some more cells that wait and some more frames. -/
def Heap.add (m : Heap σ) (jobs : List (Expr × Scope)) (fs : List (Frame Slot)) : Heap σ where
  cells := m.cells ++ (jobs.map fun j => Cell.waiting (.expr j.1 j.2)).toArray
  rest := { m.rest with frames := m.rest.frames ++ fs.toArray }

namespace Eval

/-- The heaps that evaluation by need meets between two runs. -/
inductive Built (load : Loader σ) : Heap σ → Prop where
  | empty (nextId : Nat) (outer : σ) : Built load ⟨#[], #[], nextId, outer⟩
  | add {m m' : Heap σ} (jobs : List (Expr × Scope)) (fs : List (Frame Slot)) (h : Built load m)
      (hm : m.add jobs fs = m') (hjobs : ∀ j ∈ jobs, j.2.Within m'.rest.frames.size)
      (hframes : ∀ f ∈ fs, ∀ p ∈ f, ∀ x ∈ p.2, x.Within m'.cells.size m'.rest.frames.size) : Built load m'
  | strict {m m' : Heap σ} {d : Nat} {e : Expr} {s : Scope} {o : Outcome Trouble Value} (h : Built load m)
      (hs : s.Within m.rest.frames.size) (hrun : eval load d e s m = (o, m')) (ho : o ≠ .exhausted) :
      Built load m'
  | force {m m' : Heap σ} {d : Nat} {x : Slot} {o : Outcome Trouble Value} (h : Built load m)
      (hx : x.Within m.cells.size m.rest.frames.size) (hrun : force load d x m = (o, m'))
      (ho : o ≠ .exhausted) : Built load m'

variable {load : Loader σ} {m m' n : Heap σ} {B : Nat → Nat → Prop} {s t : Scope}

theorem scopeRel_same_iff : ScopeRel (Same m) s s ↔ s.Within m.rest.frames.size := by
  simp only [ScopeRel, List.forall₂_same, Same, Scope.Within, true_and]

/-- A slot within a valid heap corresponds to itself. -/
theorem slotRel_of_within (hjob : ∀ {i job}, Heap.job? m i = some job → ∃ e s, job = .expr e s ∧
    ScopeRel (Same m) s s) {x : Slot} (hx : x.Within m.cells.size m.rest.frames.size) :
    (twinLinks (Same m) m m).SlotRel x x := by
  cases x with
  | constant c => exact .constant c
  | closure f => exact .closure ⟨rfl, rfl, scopeRel_same_iff.mpr hx⟩
  | cell i =>
    have hi : Heap.job? m i = some _ := congrArg (Option.map Cell.job) (Array.getElem?_eq_getElem hx)
    obtain ⟨e, s, he, hs⟩ := hjob hi
    exact .cell ⟨e, s, s, hi.trans (congrArg some he), hi.trans (congrArg some he), hs⟩

theorem getElem?_append_cases {α : Type} {xs ys : Array α} {i : Nat} {x : α}
    (h : (xs ++ ys)[i]? = some x) : xs[i]? = some x ∨ x ∈ ys := by
  rw [Array.getElem?_append] at h
  split at h
  · exact .inl h
  · exact .inr (Array.mem_of_getElem? h)

theorem getElem?_append_of_some {α : Type} {xs : Array α} {i : Nat} {x : α} (h : xs[i]? = some x)
    (ys : Array α) : (xs ++ ys)[i]? = some x := by
  rw [Array.getElem?_append_left (Array.getElem?_eq_some_iff.mp h).1, h]

theorem grows_add (m : Heap σ) (jobs : List (Expr × Scope)) (fs : List (Frame Slot)) :
    Grows m (m.add jobs fs) := by
  refine ⟨fun {i job} hi => ?_, fun hk => getElem?_append_of_some hk _⟩
  obtain ⟨c, hc, rfl⟩ := Heap.job?_eq_some_iff.mp hi
  exact Heap.job?_eq_some_iff.mpr ⟨c, getElem?_append_of_some hc _, rfl⟩

/-- What is in a heap with more cells was there before or waits. -/
theorem getElem?_add {jobs : List (Expr × Scope)} {fs : List (Frame Slot)} {i : Nat} {c : Cell Job Value}
    (h : (m.add jobs fs).cells[i]? = some c) :
    m.cells[i]? = some c ∨ ∃ j ∈ jobs, c = .waiting (.expr j.1 j.2) := by
  rcases getElem?_append_cases h with hold | hnew
  · exact .inl hold
  · simp only [List.mem_toArray, List.mem_map] at hnew
    obtain ⟨j, hj, rfl⟩ := hnew
    exact .inr ⟨j, hj, rfl⟩

theorem Valid.add (h : Valid m) {jobs : List (Expr × Scope)} {fs : List (Frame Slot)}
    (hm : m.add jobs fs = m') (hjobs : ∀ j ∈ jobs, j.2.Within m'.rest.frames.size)
    (hframes : ∀ f ∈ fs, ∀ p ∈ f, ∀ x ∈ p.2, x.Within m'.cells.size m'.rest.frames.size) : Valid m' := by
  subst hm
  have hgrows := grows_add m jobs fs
  have hcell {i : Nat} {c : Cell Job Value} (hi : (m.add jobs fs).cells[i]? = some c) :
      m.cells[i]? = some c ∨ ∃ e s, c = .waiting (.expr e s) ∧ ScopeRel (Same (m.add jobs fs)) s s := by
    rcases getElem?_add hi with hold | ⟨j, hj, rfl⟩
    · exact .inl hold
    · exact .inr ⟨j.1, j.2, rfl, scopeRel_same_iff.mpr (hjobs j hj)⟩
  have hjob {i : Nat} {job : Job} (hi : Heap.job? (m.add jobs fs) i = some job) :
      Heap.job? m i = some job ∨ ∃ e s, job = .expr e s ∧ ScopeRel (Same (m.add jobs fs)) s s := by
    obtain ⟨c, hc, rfl⟩ := Heap.job?_eq_some_iff.mp hi
    rcases hcell hc with hold | ⟨e, s, rfl, hs⟩
    · exact .inl (Heap.job?_eq_some_iff.mpr ⟨c, hold, rfl⟩)
    · exact .inr ⟨e, s, rfl, hs⟩
  have hexpr {i : Nat} {job : Job} (hi : Heap.job? (m.add jobs fs) i = some job) :
      ∃ e s, job = .expr e s ∧ ScopeRel (Same (m.add jobs fs)) s s := by
    rcases hjob hi with hold | hnew
    · obtain ⟨e, s, he, hs⟩ := h.job hold
      exact ⟨e, s, he, hs.imp (Same.grow hgrows)⟩
    · exact hnew
  refine h.of_grows hgrows (fun a f hf => ?_) (fun _ _ => hjob) fun i job v hi => ?_
  · rcases getElem?_append_cases hf with hold | hnew
    · exact .inl hold
    · refine .inr (List.forall₂_same.mpr fun p hp => ⟨rfl, ?_⟩)
      obtain ⟨name, x⟩ := p
      cases x with
      | none => exact .none
      | some x => exact .some (slotRel_of_within hexpr (hframes f (List.mem_toArray.mp hnew) _ hp x rfl))
  · rcases hcell hi with hold | ⟨e, s, hnew, -⟩
    · exact .inl hold
    · cases hnew

theorem Faithful.add {k : Nat} (h : Faithful k m) {jobs : List (Expr × Scope)} {fs : List (Frame Slot)}
    (hm : m.add jobs fs = m') (hvalid : Valid m') : Faithful k m' := by
  subst hm
  refine h.of_grows (grows_add m jobs fs) hvalid (fun i e s v hi => ?_) fun i e s hi => ?_
  · rcases getElem?_add hi with hold | ⟨j, -, hnew⟩
    · exact .inl hold
    · cases hnew
  · rcases getElem?_add hi with hold | ⟨j, -, hnew⟩
    · exact .inl hold
    · cases hnew

/-- A heap that is built is faithful, and no cell of it is busy. -/
theorem Built.faithful (h : Built load m) :
    (∀ k, Faithful k m) ∧ ∀ (i : Nat) job, m.cells[i]? ≠ some (.busy job) := by
  induction h with
  | empty nextId outer =>
    have hvalid : Valid (σ := σ) ⟨#[], #[], nextId, outer⟩ :=
      ⟨fun a b hab => by simp [Same] at hab, fun hi => by simp [Heap.job?] at hi, fun hi => by simp at hi⟩
    exact ⟨fun k => ⟨hvalid, fun hi => by simp at hi, fun hi => by simp at hi⟩, by simp⟩
  | add jobs fs _ hm hjobs hframes ih =>
    refine ⟨fun k => (ih.1 k).add hm ((ih.1 0).toValid.add hm hjobs hframes), fun i job hi => ?_⟩
    subst hm
    rcases getElem?_add hi with hold | ⟨j, -, hnew⟩
    · exact ih.2 i job hold
    · cases hnew
  | strict _ hs hrun ho ih =>
    obtain ⟨hfaithful, -, hbusy⟩ := eval_keeps ih.1 (scopeRel_same_iff.mpr hs) hrun ho
    exact ⟨hfaithful, fun i job hi => ih.2 i job (hbusy i job hi)⟩
  | force _ hx hrun ho ih =>
    obtain ⟨hfaithful, -, hbusy⟩ := force_keeps ih.1 (slotRel_of_within (ih.1 0).job hx) hrun ho
    exact ⟨hfaithful, fun i job hi => ih.2 i job (hbusy i job hi)⟩

/-- **Call by need agrees with call by name.** The heaps are twins, such as a heap and itself, and the one
that evaluation by need runs in is built. If an expression comes to an end by name, and no comparison
depends on identities, then it comes to a corresponding end by need, and the heaps are twins again. So
what is told to be circular does not come to an end by name. -/
theorem eval_agrees_byName (hn : Built load n) (htwin : Twin B m n) (hst : ScopeRel B s t) (e : Expr) :
    (∀ k o m', surely k e s m = (o, m') → o ≠ .exhausted →
      Converges (fun d => byName (fun _ _ => true) d e s) m (o, m') ∧
      ∃ o' n' C, Converges (fun d => eval load d e t) n (o', n') ∧
        o.Rel (twinLinks C m' n').ValueRel (fun x => ¬ IsCircular x) o' ∧
        Twin C m' n' ∧ Built load n' ∧ ∀ a b, B a b → C a b) ∧
    ∀ d x n', eval load d e t n = (.error x, n') → IsCircular x → ∀ k, (surely k e s m).1 = .exhausted := by
  have hfollows (k : Nat) (o : Outcome Trouble Value) (m' : Heap σ) (hrun : surely k e s m = (o, m'))
      (ho : o ≠ .exhausted) : ∃ o' n' C, Converges (fun d => eval load d e t) n (o', n') ∧
        o.Rel (twinLinks C m' n').ValueRel (fun x => ¬ IsCircular x) o' ∧ Twin C m' n' ∧
        ∀ a b, B a b → C a b := by
    obtain ⟨w, hw, rfl, o', hrel, hconv⟩ := followed load k ⟨⟨m, n, B, htwin⟩, hn.faithful.1 k⟩ e s t hst o m'
      hrun (Worlds.minds_of_ne _ trivial ho)
    refine ⟨o', w.right, w.B, hconv, ?_, w.twin, hw.related⟩
    -- by name nothing is circular
    obtain ⟨o'', n', C, -, -, -, -, -, hrel'⟩ := byName_twin htwin hst k e hrun
    cases hrel with
    | ok h => exact .ok h
    | error x _ =>
      cases hrel' with
      | error _ hx => exact .error x hx
    | exhausted => exact .exhausted
  refine ⟨fun k o m' hrun ho => ?_, fun d x n' hrun hx k => ?_⟩
  · obtain ⟨o', n', C, hconv, hrel, htwin', hBC⟩ := hfollows k o m' hrun ho
    refine ⟨byName_converges (fun _ _ _ => rfl) hrun ho, o', n', C, hconv, hrel, htwin', ?_, hBC⟩
    obtain ⟨d, hd⟩ := hconv
    have ho' : o' ≠ .exhausted := by rintro rfl; cases hrel; exact ho rfl
    exact .strict hn (scopeRel_same_iff.mp (htwin.right_scope hst)) (hd d (Nat.le_refl d)) ho'
  · by_contra hend
    obtain ⟨o', n'', C, hconv, hrel, -, -⟩ := hfollows k _ _ rfl hend
    obtain ⟨rfl, rfl⟩ := Prod.mk.inj ((eval_converges load hrun (by simp)).unique hconv)
    generalize (surely k e s m).1 = o at hrel
    cases hrel with
    | error _ h => exact h hx

/-! ## Cases -/

def noImports : Loader Unit := fun _ _ _ => Computation.exhaust

def home : Scope := ⟨"home", [0]⟩

/-- The declarations `x = 1 + 2` and `y = [x, y]`. -/
def cyclicStart : Heap Unit :=
  Heap.add ⟨#[], #[], 0, ()⟩
    [(.binary (.literal (.int 1) 4) .add (.literal (.int 2) 8) 6, home),
      (.list [.lookup "x" 15, .lookup "y" 18] 14, home)]
    [[("x", some (.cell 0)), ("y", some (.cell 1))]]

/-- The same after `y` has been demanded. -/
def cyclicHeap : Heap Unit := (force noImports 5 (.cell 1) cyclicStart).2

/-- The expression `y[1][0] * x`. -/
def cyclicExpr : Expr :=
  .binary (.subscript (.subscript (.lookup "y" 21) (.literal (.int 1) 23) 22) (.literal (.int 0) 26) 25) .mul
    (.lookup "x" 31) 29

theorem built_cyclicHeap : Built noImports cyclicHeap := by
  have hstart : Built noImports cyclicStart := .add _ _ (.empty 0 ()) rfl (by decide) (by decide)
  have hrun : force noImports 5 (.cell 1) cyclicStart = (.ok _, cyclicHeap) := rfl
  exact .force hstart (by decide) hrun (by simp)

/-- What is nine by name is nine by need, in a heap that has a list in itself and is evaluated in part. -/
theorem eval_agrees_byName_cyclicHeap :
    Built noImports cyclicHeap ∧ Twin (Same cyclicHeap) cyclicHeap cyclicHeap ∧
      ScopeRel (Same cyclicHeap) home home ∧
      ∃ n', Converges (fun d => eval noImports d cyclicExpr home) cyclicHeap (.ok (.number (.int 9)), n') := by
  have hbuilt := built_cyclicHeap
  have htwin := (hbuilt.faithful.1 0).twin
  have hhome : ScopeRel (Same cyclicHeap) home home := scopeRel_same_iff.mpr (by decide)
  refine ⟨hbuilt, htwin, hhome, ?_⟩
  obtain ⟨-, o', n', C, hconv, hrel, -⟩ :=
    (eval_agrees_byName hbuilt htwin hhome cyclicExpr).1 9 (.ok (.number (.int 9))) _ rfl (by simp)
  cases hrel with
  | ok h =>
    cases h with
    | number h =>
      cases h
      exact ⟨n', hconv⟩

/-- The declaration `g = if true then x => x else nil`. -/
def functionHeap : Heap Unit :=
  Heap.add ⟨#[], #[], 0, ()⟩
    [(.cond (.literal (.flag true) 7) (.lambda ["x"] (.lookup "x" 22) 19) (.literal .nil 29) 4, home)]
    [[("g", some (.cell 0))]]

/-- The expression `g == g`. -/
def functionExpr : Expr := .binary (.lookup "g" 33) .eq (.lookup "g" 38) 35

/-- Where a comparison depends on which functions are the very same, by need and by name may differ: `g` is
equal to itself by need only. It is not enough that no absence of a number is compared. -/
theorem eval_differs_byName :
    ¬ ∀ (load : Loader Unit) (n : Heap Unit) (s : Scope) (e : Expr), Built load n →
      s.Within n.rest.frames.size → ∀ k o m', byName (fun x y => x.noNan && y.noNan) k e s n = (o, m') →
        o ≠ .exhausted → ∃ o' n' C, Converges (fun d => eval load d e s) n (o', n') ∧
          o.Rel (twinLinks C m' n').ValueRel (fun _ => True) o' := by
  intro h
  have hbuilt : Built noImports functionHeap := .add _ _ (.empty 0 ()) rfl (by decide) (by decide)
  obtain ⟨o', n', C, hconv, hrel⟩ :=
    h noImports functionHeap home functionExpr hbuilt (by decide) 9 (.ok (.flag false)) _ rfl (by simp)
  have hneed : eval noImports 9 functionExpr home functionHeap = (.ok (.flag true), _) := rfl
  obtain ⟨rfl, -⟩ := Prod.mk.inj ((eval_converges noImports hneed (by simp)).unique hconv)
  cases hrel with
  | ok h => cases h

end Eval

end LazyModules
