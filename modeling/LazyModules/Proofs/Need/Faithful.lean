import LazyModules.Proofs.Need.Twins

/-!
# Faithful heaps

A heap is faithful if what its cells hold agrees with evaluation by name: the result of a finished cell is
what its expression comes to by name, if that comes to anything, and the expression of a busy cell comes to
nothing within a given depth. So a demand that meets a busy cell would not come to an end by name either.

**Results.** `Right.grow`, `Faithful.of_grows`: a heap that grows stays faithful, as long as the cells that
are new in their state are.
-/
namespace LazyModules.Eval

variable {σ τ : Type} {B C : Nat → Nat → Prop} {m m' : Heap σ} {n : Heap τ} {s t : Scope}

/-! ## Valid heaps -/

/-- A frame that is there, and itself. -/
def Same (m : Heap σ) (a b : Nat) : Prop := a = b ∧ b < m.rest.frames.size

/-- Everything in a heap is about cells and frames that are there, and every cell is for an expression. -/
structure Valid (m : Heap σ) : Prop where
  twin : Twin (Same m) m m
  job : ∀ {i job}, Heap.job? m i = some job → ∃ e s, job = .expr e s ∧ ScopeRel (Same m) s s
  result : ∀ {i : Nat} {job v}, m.cells[i]? = some (.done job v) → (twinLinks (Same m) m m).ValueRel v v

theorem Same.grow (h : Grows m m') (a b : Nat) (hab : Same m a b) : Same m' a b := by
  obtain ⟨rfl, ha⟩ := hab
  have hframe := h.frame (Array.getElem?_eq_getElem ha)
  exact ⟨rfl, (Array.getElem?_eq_some_iff.mp hframe).1⟩

theorem Same.pushFrame (m : Heap σ) (f : Frame Slot) :
    Same (m.pushFrame f) m.rest.frames.size m.rest.frames.size :=
  ⟨rfl, (Array.getElem?_eq_some_iff.mp (Heap.getElem?_pushFrame_size m f)).1⟩

theorem same_twinLinks_le (h : Grows m m') :
    (twinLinks (Same m) m m).Le (twinLinks (Same m') m' m') :=
  twinLinks_le (Same.grow h) h h

theorem Twin.right_lt (h : Twin B m n) (a b : Nat) (hab : B a b) : Same n b b := by
  obtain ⟨f, g, -, hg, -⟩ := h a b hab
  exact ⟨rfl, (Array.getElem?_eq_some_iff.mp hg).1⟩

/-- A scope of a twin is about frames that are there. -/
theorem Twin.right_scope (h : Twin B m n) (hst : ScopeRel B s t) : ScopeRel (Same n) t t :=
  ⟨rfl, forall₂_right h.right_lt hst.2⟩

theorem Twin.right_le (h : Twin B m n) : (twinLinks B m n).right.Le (twinLinks (Same n) n n) where
  ident _ := trivial
  cell := by
    rintro j _ ⟨rfl, i, e, s, t, -, hj, hst⟩
    exact ⟨e, t, t, hj, hj, h.right_scope hst⟩
  closure := by
    rintro g _ ⟨rfl, f, -, -, hst⟩
    exact ⟨rfl, rfl, h.right_scope hst⟩

theorem Valid.twin_grow (h : Valid m) (hm : Grows m m') : Twin (Same m) m m' := h.twin.grow (.refl m) hm

/-- A heap that grows stays valid, as long as what is new is valid. -/
theorem Valid.of_grows (h : Valid m) (hm : Grows m m')
    (hframe : ∀ (a : Nat) (f : Frame Slot), m'.rest.frames[a]? = some f → m.rest.frames[a]? = some f ∨
      (twinLinks (Same m') m' m').FrameRel f f)
    (hjob : ∀ i job, Heap.job? m' i = some job → Heap.job? m i = some job ∨
      ∃ e s, job = .expr e s ∧ ScopeRel (Same m') s s)
    (hresult : ∀ (i : Nat) job v, m'.cells[i]? = some (.done job v) → m.cells[i]? = some (.done job v) ∨
      (twinLinks (Same m') m' m').ValueRel v v) : Valid m' where
  twin := by
    rintro a _ ⟨rfl, ha⟩
    have hf := Array.getElem?_eq_getElem ha
    refine ⟨_, _, hf, hf, ?_⟩
    rcases hframe a _ hf with hold | hnew
    · obtain ⟨f, g, hf', hg, hfg⟩ := h.twin a a ⟨rfl, (Array.getElem?_eq_some_iff.mp hold).1⟩
      obtain rfl := Option.some.inj (hf'.symm.trans hold)
      obtain rfl := Option.some.inj (hg.symm.trans hold)
      exact hfg.mono (same_twinLinks_le hm)
    · exact hnew
  job hi := by
    rcases hjob _ _ hi with hold | hnew
    · obtain ⟨e, s, rfl, hs⟩ := h.job hold
      exact ⟨e, s, rfl, hs.imp (Same.grow hm)⟩
    · exact hnew
  result hi := by
    rcases hresult _ _ _ hi with hold | hnew
    · exact (h.result hold).mono (same_twinLinks_le hm)
    · exact hnew

theorem Valid.pushCell (h : Valid m) (e : Expr) (hs : ScopeRel (Same m) s s) :
    Valid (m.pushCell (.expr e s)) := by
  refine h.of_grows (.pushCell m _) (fun _ _ => .inl) (fun i job hi => ?_) fun i job v hi => ?_
  · obtain ⟨c, hc, rfl⟩ := Heap.job?_eq_some_iff.mp hi
    rcases Heap.getElem?_pushCell hc with hold | rfl
    · exact .inl (Heap.job?_eq_some_iff.mpr ⟨c, hold, rfl⟩)
    · exact .inr ⟨e, s, rfl, hs⟩
  · rcases Heap.getElem?_pushCell hi with hold | hnew
    · exact .inl hold
    · cases hnew

theorem Valid.pushFrame (h : Valid m) {f : Frame Slot} (hf : (twinLinks (Same m) m m).FrameRel f f) :
    Valid (m.pushFrame f) := by
  refine h.of_grows (.pushFrame m f) (fun a g hg => ?_) (fun _ _ => .inl) fun _ _ _ => .inl
  rcases Heap.getElem?_pushFrame hg with hold | rfl
  · exact .inl hold
  · exact .inr (hf.mono (same_twinLinks_le (.pushFrame m _)))

theorem Valid.useId (h : Valid m) : Valid m.useId :=
  h.of_grows (.useId m) (fun _ _ => .inl) (fun _ _ => .inl) fun _ _ _ => .inl

theorem Valid.setCell (h : Valid m) {i : Nat} {c : Cell Job Value} (hi : Heap.job? m i = some c.job)
    (hc : ∀ job v, c = .done job v → (twinLinks (Same m) m m).ValueRel v v) : Valid (m.setCell i c) := by
  have hm := Grows.setCell hi
  refine h.of_grows hm (fun _ _ => .inl) (fun k job hk => ?_) fun k job v hk => ?_
  · rw [Heap.job?_setCell hi] at hk
    exact .inl hk
  · rcases Heap.getElem?_setCell hk with ⟨-, hold⟩ | ⟨-, hnew⟩
    · exact .inl hold
    · exact .inr ((hc job v hnew.symm).mono (same_twinLinks_le hm))

/-! ## Results that are right -/

/-- By name, an expression comes to what corresponds to a value, if it comes to anything. -/
def Right (m : Heap σ) (e : Expr) (s : Scope) (v : Value) : Prop :=
  ∀ k o m', surely k e s m = (o, m') → o ≠ .exhausted →
    ∃ v' C, o = .ok v' ∧ Twin C m' m ∧ (twinLinks C m' m).ValueRel v' v

/-- By name, an expression does not come to an end within a depth. -/
def Unending (k : Nat) (m : Heap σ) (e : Expr) (s : Scope) : Prop :=
  ∀ j < k, (surely j e s m).1 = .exhausted

theorem Unending.twin {k : Nat} {e : Expr} (h : Unending k m e s) (htwin : Twin B m n) (hst : ScopeRel B s t) :
    Unending k n e t := by
  intro j hj
  obtain ⟨o, n', C, hn, -, -, -, -, ho⟩ := byName_twin htwin hst j e rfl
  rw [h j hj] at ho
  rw [hn]
  cases ho
  rfl

theorem Right.of_unending {e : Expr} {v : Value} (h : ∀ k, Unending k m e s) : Right m e s v := by
  intro k o m' hrun ho
  have := h (k + 1) k (Nat.lt_succ_self k)
  rw [hrun] at this
  exact absurd this ho

/-- What an expression comes to in one heap is right in its twins. -/
theorem Right.of_twin {k : Nat} {e : Expr} {m₁ m₁' : Heap σ} {a v : Value} (htwin : Twin B m₁ m)
    (hst : ScopeRel B s t) (hrun : surely k e s m₁ = (.ok a, m₁')) (htwin' : Twin C m₁' m)
    (hv : (twinLinks C m₁' m).ValueRel a v) : Right m e t v := by
  intro j o m' hj ho
  match hj₁ : surely j e s m₁ with
  | (o₁, m₂) =>
    obtain ⟨o', n, D, hn, -, -, -, hD, hrel⟩ := byName_twin htwin hst j e hj₁
    obtain ⟨rfl, rfl⟩ := Prod.mk.inj (hn.symm.trans hj)
    have ho₁ : o₁ ≠ .exhausted := by rintro rfl; cases hrel; exact ho rfl
    obtain ⟨rfl, rfl⟩ := byName_unique hrun (by simp) hj₁ ho₁
    cases hrel with
    | @ok _ v' hv' => exact ⟨v', _, rfl, hD.flip.comp htwin', ((hv'.flip.mono flip_twinLinks_le).comp hv).mono
        comp_twinLinks_le⟩

theorem Right.grow {e : Expr} {v : Value} (h : Right m e s v) (hm : Grows m m') (hvalid : Valid m)
    (hs : ScopeRel (Same m) s s) : Right m' e s v := by
  intro k o n hrun ho
  match hk : surely k e s m with
  | (o₁, m₁) =>
    obtain ⟨o', n', C, hn, -, -, -, hC, hrel⟩ := byName_twin (hvalid.twin_grow hm) hs k e hk
    obtain ⟨rfl, rfl⟩ := Prod.mk.inj (hn.symm.trans hrun)
    have ho₁ : o₁ ≠ .exhausted := by rintro rfl; cases hrel; exact ho rfl
    obtain ⟨a, D, rfl, hD, ha⟩ := h k o₁ m₁ hk ho₁
    have hD' := hD.grow (.refl m₁) hm
    have ha' := ha.mono (twinLinks_le (fun _ _ => id) (.refl m₁) hm)
    exact Right.of_twin (hvalid.twin_grow hm) hs hk hD' ha' k o' n' hrun ho

/-! ## Faithful heaps -/

/-- A heap whose cells hold what is right, and are busy only with what does not come to an end by name
within the depth `k`. -/
structure Faithful (k : Nat) (m : Heap σ) : Prop extends Valid m where
  done : ∀ {i : Nat} {e s v}, m.cells[i]? = some (.done (.expr e s) v) → Right m e s v
  busy : ∀ {i : Nat} {e s}, m.cells[i]? = some (.busy (.expr e s)) → Unending k m e s

theorem Valid.scope_of_cell (h : Valid m) {i : Nat} {c : Cell Job Value} {e : Expr}
    (hi : m.cells[i]? = some c) (hc : c.job = .expr e s) : ScopeRel (Same m) s s := by
  obtain ⟨e', s', he, hs⟩ := h.job (Heap.job?_eq_some_iff.mpr ⟨c, hi, hc⟩)
  obtain ⟨rfl, rfl⟩ := Job.expr.inj he
  exact hs

theorem Faithful.mono {j k : Nat} (h : Faithful k m) (hjk : j ≤ k) : Faithful j m :=
  ⟨h.toValid, h.done, fun hi j' hj' => h.busy hi j' (by omega)⟩

/-- A heap that grows stays faithful, as long as the cells that are new in their state are. -/
theorem Faithful.of_grows {k : Nat} (h : Faithful k m) (hm : Grows m m') (hvalid : Valid m')
    (hdone : ∀ (i : Nat) e s v, m'.cells[i]? = some (.done (.expr e s) v) →
      m.cells[i]? = some (.done (.expr e s) v) ∨ Right m' e s v)
    (hbusy : ∀ (i : Nat) e s, m'.cells[i]? = some (.busy (.expr e s)) →
      m.cells[i]? = some (.busy (.expr e s)) ∨ Unending k m' e s) : Faithful k m' where
  toValid := hvalid
  done hi := by
    rcases hdone _ _ _ _ hi with hold | hnew
    · exact (h.done hold).grow hm h.toValid (h.scope_of_cell hold rfl)
    · exact hnew
  busy hi := by
    rcases hbusy _ _ _ hi with hold | hnew
    · exact (h.busy hold).twin (h.twin_grow hm) (h.scope_of_cell hold rfl)
    · exact hnew

theorem Faithful.pushCell {k : Nat} (h : Faithful k m) (e : Expr) (hs : ScopeRel (Same m) s s) :
    Faithful k (m.pushCell (.expr e s)) := by
  refine h.of_grows (.pushCell m _) (h.toValid.pushCell e hs) (fun i e s v hi => ?_) fun i e s hi => ?_
  · rcases Heap.getElem?_pushCell hi with hold | hnew
    · exact .inl hold
    · cases hnew
  · rcases Heap.getElem?_pushCell hi with hold | hnew
    · exact .inl hold
    · cases hnew

theorem Faithful.pushFrame {k : Nat} (h : Faithful k m) {f : Frame Slot}
    (hf : (twinLinks (Same m) m m).FrameRel f f) : Faithful k (m.pushFrame f) :=
  h.of_grows (.pushFrame m f) (h.toValid.pushFrame hf) (fun _ _ _ _ => .inl) fun _ _ _ => .inl

theorem Faithful.useId {k : Nat} (h : Faithful k m) : Faithful k m.useId :=
  h.of_grows (.useId m) h.toValid.useId (fun _ _ _ _ => .inl) fun _ _ _ => .inl

end LazyModules.Eval
