import LazyModules.Proofs.Need.Depth

/-!
# Twin heaps

Two heaps are twins, by a relation `B` between their frames, if frames that are related bind the same
names to corresponding slots: the same constant, functions with the same text in related scopes, or cells
that were made for the same expression in related scopes. What the cells hold by now does not matter, and
nor do identities.

Evaluation by name does not notice the difference between twins.

**Results.**
* `Twin.grow`, `Twin.union`, `Twin.flip`, `Twin.comp`: twins stay twins, and are so by other relations.
* `byName_twin`: by name, an expression in related scopes of twins comes to corresponding ends, and
  leaves twins.
-/
namespace LazyModules.Eval

variable {σ τ υ : Type}

/-- Scopes of the same module with related frames. -/
def ScopeRel (B : Nat → Nat → Prop) (s t : Scope) : Prop :=
  s.address = t.address ∧ List.Forall₂ B s.frames t.frames

/-- What corresponds in two heaps whose frames are related by `B`. -/
def twinLinks (B : Nat → Nat → Prop) (m : Heap σ) (n : Heap τ) : Links where
  ident _ _ := True
  cell i j := ∃ e s t, Heap.job? m i = some (.expr e s) ∧ Heap.job? n j = some (.expr e t) ∧ ScopeRel B s t
  closure f g := f.params = g.params ∧ f.body = g.body ∧ ScopeRel B f.scope g.scope

/-- Heaps whose related frames correspond. -/
def Twin (B : Nat → Nat → Prop) (m : Heap σ) (n : Heap τ) : Prop :=
  ∀ a b, B a b → ∃ f g, m.rest.frames[a]? = some f ∧ n.rest.frames[b]? = some g ∧
    (twinLinks B m n).FrameRel f g

variable {B C : Nat → Nat → Prop} {m m' : Heap σ} {n n' : Heap τ} {p : Heap υ} {s t : Scope}

theorem ScopeRel.imp (hBC : ∀ a b, B a b → C a b) (h : ScopeRel B s t) : ScopeRel C s t :=
  ⟨h.1, h.2.imp hBC⟩

theorem twinLinks_le (hBC : ∀ a b, B a b → C a b) (hm : Grows m m') (hn : Grows n n') :
    (twinLinks B m n).Le (twinLinks C m' n') where
  ident _ := trivial
  cell := by
    rintro i j ⟨e, s, t, hi, hj, hst⟩
    exact ⟨e, s, t, hm.job hi, hn.job hj, hst.imp hBC⟩
  closure := by
    rintro f g ⟨hparams, hbody, hst⟩
    exact ⟨hparams, hbody, hst.imp hBC⟩

/-! ## Twins stay twins -/

theorem Twin.grow (h : Twin B m n) (hm : Grows m m') (hn : Grows n n') : Twin B m' n' := by
  intro a b hab
  obtain ⟨f, g, hf, hg, hfg⟩ := h a b hab
  exact ⟨f, g, hm.frame hf, hn.frame hg, hfg.mono (twinLinks_le (fun _ _ => id) hm hn)⟩

theorem Twin.union (h : Twin B m n) (h' : Twin C m n) : Twin (fun a b => B a b ∨ C a b) m n := by
  rintro a b (hab | hab)
  · obtain ⟨f, g, hf, hg, hfg⟩ := h a b hab
    exact ⟨f, g, hf, hg, hfg.mono (twinLinks_le (fun _ _ => .inl) (.refl m) (.refl n))⟩
  · obtain ⟨f, g, hf, hg, hfg⟩ := h' a b hab
    exact ⟨f, g, hf, hg, hfg.mono (twinLinks_le (fun _ _ => .inr) (.refl m) (.refl n))⟩

theorem flip_twinLinks_le : (twinLinks B m n).flip.Le (twinLinks (fun b a => B a b) n m) where
  ident _ := trivial
  cell := by
    rintro i j ⟨e, s, t, hi, hj, hst⟩
    exact ⟨e, t, s, hj, hi, hst.1.symm, hst.2.flip⟩
  closure := by
    rintro f g ⟨hparams, hbody, hst⟩
    exact ⟨hparams.symm, hbody.symm, hst.1.symm, hst.2.flip⟩

theorem Twin.flip (h : Twin B m n) : Twin (fun b a => B a b) n m := by
  intro b a hab
  obtain ⟨f, g, hf, hg, hfg⟩ := h a b hab
  exact ⟨g, f, hg, hf, hfg.flip.mono flip_twinLinks_le⟩

theorem ScopeRel.comp {u : Scope} (h : ScopeRel B s t) (h' : ScopeRel C t u) :
    ScopeRel (Relation.Comp B C) s u :=
  ⟨h.1.trans h'.1, forall₂_join (fun _ b _ hab hbc => ⟨b, hab, hbc⟩) h.2 h'.2⟩

theorem comp_twinLinks_le :
    ((twinLinks B m n).comp (twinLinks C n p)).Le (twinLinks (Relation.Comp B C) m p) where
  ident _ := trivial
  cell := by
    rintro i k ⟨j, ⟨e, s, t, hi, hj, hst⟩, ⟨e', t', u, hj', hk, htu⟩⟩
    obtain ⟨rfl, rfl⟩ := Job.expr.inj (Option.some.inj (hj.symm.trans hj'))
    exact ⟨e, s, u, hi, hk, hst.comp htu⟩
  closure := by
    rintro f k ⟨g, ⟨hparams, hbody, hst⟩, ⟨hparams', hbody', htu⟩⟩
    exact ⟨hparams.trans hparams', hbody.trans hbody', hst.comp htu⟩

theorem Twin.comp (h : Twin B m n) (h' : Twin C n p) : Twin (Relation.Comp B C) m p := by
  rintro a c ⟨b, hab, hbc⟩
  obtain ⟨f, g, hf, hg, hfg⟩ := h a b hab
  obtain ⟨g', k, hg', hk, hgk⟩ := h' b c hbc
  obtain rfl : g = g' := Option.some.inj (hg.symm.trans hg')
  exact ⟨f, k, hf, hk, (hfg.comp hgk).mono comp_twinLinks_le⟩

/-- The relation `B` and one pair more. -/
def relateMore (B : Nat → Nat → Prop) (a₀ b₀ : Nat) (a b : Nat) : Prop := B a b ∨ a = a₀ ∧ b = b₀

theorem Twin.pushFrame (h : Twin B m n) {f g : Frame Slot} (hfg : (twinLinks B m n).FrameRel f g) :
    Twin (relateMore B m.rest.frames.size n.rest.frames.size) (m.pushFrame f) (n.pushFrame g) := by
  have hle := twinLinks_le (C := relateMore B m.rest.frames.size n.rest.frames.size) (fun _ _ => .inl)
    (Grows.pushFrame m f) (Grows.pushFrame n g)
  rintro a b (hab | ⟨rfl, rfl⟩)
  · obtain ⟨f', g', hf, hg, hfg'⟩ := h a b hab
    exact ⟨f', g', (Grows.pushFrame m f).frame hf, (Grows.pushFrame n g).frame hg, hfg'.mono hle⟩
  · exact ⟨f, g, Heap.getElem?_pushFrame_size m f, Heap.getElem?_pushFrame_size n g, hfg.mono hle⟩

/-- Calls with corresponding arguments bind the parameters to corresponding slots. -/
theorem callFrame_rel {L : Links} (params : List String) {xs ys : List Slot}
    (h : List.Forall₂ L.SlotRel xs ys) : L.FrameRel (callFrame (params.zip xs)) (callFrame (params.zip ys)) := by
  refine Table.insertAll_rel ?_ .nil
  induction h generalizing params with
  | nil => simp
  | cons hxy _ ih =>
    cases params with
    | nil => exact .nil
    | cons q params => exact .cons ⟨rfl, .some hxy⟩ (ih params)

/-- Related scopes of twins have corresponding frames. -/
theorem Twin.frame (h : Twin B m n) (a b : Nat) (hab : B a b) :
    (twinLinks B m n).FrameRel (m.rest.frames.frame a) (n.rest.frames.frame b) := by
  obtain ⟨f, g, hf, hg, hfg⟩ := h a b hab
  rw [Frames.frame, Frames.frame, hf, hg]
  exact hfg

/-! ## By name, twins are alike -/

/-- Twin heaps and what relates them. -/
structure TwinWorld (σ τ : Type) where
  left : Heap σ
  right : Heap τ
  B : Nat → Nat → Prop
  twin : Twin B left right

/-- The later twins have grown from the earlier ones. -/
structure TwinWorld.Le (u w : TwinWorld σ τ) : Prop where
  related : ∀ a b, u.B a b → w.B a b
  left : Grows u.left w.left
  right : Grows u.right w.right

/-- What corresponds on twin heaps. -/
def twinRelations (σ τ : Type) : Relations σ τ where
  World := TwinWorld σ τ
  left := TwinWorld.left
  right := TwinWorld.right
  le := TwinWorld.Le
  total := True
  heeds := True
  admits x := ¬ IsCircular x
  le_refl _ := ⟨fun _ _ => id, .refl _, .refl _⟩
  le_trans h h' :=
    ⟨fun a b hab => h'.related a b (h.related a b hab), h.left.trans h'.left, h.right.trans h'.right⟩
  links w := twinLinks w.B w.left w.right
  visit w e e' s t := e = e' ∧ ScopeRel w.B s t
  links_mono h := twinLinks_le h.related h.left h.right
  visit_mono h hst := ⟨hst.1, hst.2.imp h.related⟩
  admits_of_not := id

def twinWalk (σ τ : Type) : Correspondence σ τ where
  toRelations := twinRelations σ τ
  address h := h.2.1
  same h _ := h.1
  like := by rintro _ _ _ _ _ ⟨rfl, h⟩; exact .self fun _ _ => ⟨rfl, h⟩
  visit_lambda := by rintro _ _ _ _ _ _ _ _ _ _ ⟨⟨⟩, h⟩ -; exact ⟨rfl, rfl, h⟩
  closure_id _ := trivial
  params h := h.1
  freshId w := by
    let u : TwinWorld σ τ := ⟨w.left.useId, w.right.useId, w.B, w.twin.grow (.useId _) (.useId _)⟩
    exact Worlds.Follows.move (u := u) ⟨fun _ _ => id, .useId _, .useId _⟩ rfl (fun _ => rfl) trivial
  find := by
    rintro w name n _ s t ⟨⟨⟩, h⟩
    exact Relations.find_follows (twinRelations σ τ) (w := w) h.1
      (Scope.lookup?_rel w.twin.frame h.2 name) fun _ => ⟨Scope.names_rel w.twin.frame h.2, rfl⟩
  enter := by
    rintro w f g xs ys ⟨hparams, hbody, hst⟩ hxs -
    let u : TwinWorld σ τ := ⟨_, _, _, w.twin.pushFrame (callFrame_rel f.params hxs)⟩
    rw [← hparams]
    refine Worlds.Follows.move (u := u) ⟨fun _ _ => .inl, .pushFrame _ _, .pushFrame _ _⟩ (enter_eq _ _ _)
      (fun _ => enter_eq _ _ _) ?_
    exact ⟨hbody, hst.1, .cons (.inr ⟨rfl, rfl⟩) (hst.imp fun _ _ => .inl).2⟩

theorem delay_twinWalk {w : TwinWorld σ τ} {e e' : Expr} (hvisit : (twinWalk σ τ).visit w e e' s t) :
    (twinWalk σ τ).Follows w (twinWalk σ τ).SlotRel (delay s e) fun _ => delay t e' := by
  refine Correspondence.delay_follows (K := twinWalk σ τ) (w := w) hvisit ?_
  obtain ⟨rfl, h⟩ := hvisit
  let u : TwinWorld σ τ := ⟨_, _, w.B, w.twin.grow (.pushCell _ (.expr e s)) (.pushCell _ (.expr e t))⟩
  exact ⟨u, ⟨fun _ _ => id, .pushCell _ _, .pushCell _ _⟩, rfl, rfl,
    e, s, t, Heap.job?_pushCell_size _ _, Heap.job?_pushCell_size _ _, h⟩

theorem map_eq_map {α β : Type} {f : α → β} {xs ys : List α}
    (h : List.Forall₂ (fun x y => f x = f y) xs ys) : xs.map f = ys.map f := by
  induction h with
  | nil => rfl
  | cons hxy _ ih => rw [List.map_cons, List.map_cons, hxy, ih]

/-- Without identities, trees look alike in twins. -/
theorem blind_blur (K : Correspondence σ τ) :
    Correspondence.Blind K fun _ x y => x.blur 0 = y.blur 0 where
  mono _ h := h
  leaf _ := rfl
  list h := by
    simp only [Tree.blur, Tree.relabel, Tree.relabelItems_eq_map]
    exact congrArg Tree.list (map_eq_map h)
  record h := by
    simp only [Tree.blur, Tree.relabel, Tree.relabelFields_eq_map]
    exact congrArg Tree.record (map_eq_map (h.imp fun _ _ h => Prod.ext h.1 h.2))
  function _ := rfl
  nan _ := rfl

theorem byName_twinWalk (k : Nat) (w : TwinWorld σ τ) (e : Expr) {s t : Scope} (h : ScopeRel w.B s t) :
    (twinWalk σ τ).Follows w (twinWalk σ τ).ValueRel (surely k e s) fun _ =>
      surely k e t := by
  induction k generalizing w e s t with
  | zero => exact Worlds.Follows.exhaust
  | succ k ih =>
    have hforce {w : TwinWorld σ τ} {x y : Slot} (hxy : (twinLinks w.B w.left w.right).SlotRel x y) :
        (twinWalk σ τ).Follows w (twinWalk σ τ).ValueRel (forceAgain (surely k) x) fun _ =>
          forceAgain (surely k) y := by
      cases hxy with
      | constant c => exact Worlds.Follows.pure (.constant c)
      | closure h => exact Worlds.Follows.pure (.function h)
      | cell h =>
        obtain ⟨e, s, t, hi, hj, hst⟩ := h
        exact forceAgain_follows hi hj (ih w e hst)
    have hrespects : (twinWalk σ τ).Respects (forgetful Tree.sure k (surely k)) fun _ =>
        forgetful Tree.sure k (surely k) :=
      { strict := by rintro w e _ s t ⟨rfl, h⟩; exact ih w e h
        delay := delay_twinWalk
        force := hforce
        look := fun _ hxy => hforce hxy
        compare := fun ha hb =>
          compareAgain_follows (blind_blur _)
            (fun hx hy hxy => ⟨(Tree.sure_congr hx hy).symm.trans hxy, Tree.equal_congr hx hy hxy⟩)
            (fun _ _ _ _ _ _ hx hy hxy => (Tree.sure_congr hx hy).symm.trans hxy)
            hforce k ⟨0, fun _ _ => ⟨Nat.le_refl k, fun _ => rfl⟩⟩ ha hb }
    exact Correspondence.step_follows (K := twinWalk σ τ) (w := w) hrespects ⟨rfl, h⟩

/-- By name, an expression in related scopes of twins comes to corresponding ends and leaves twins. -/
theorem byName_twin (htwin : Twin B m n) (hst : ScopeRel B s t) (k : Nat) (e : Expr)
    {o : Outcome Trouble Value} (h : surely k e s m = (o, m')) :
    ∃ o' n' C, surely k e t n = (o', n') ∧ (∀ a b, B a b → C a b) ∧ Grows m m' ∧ Grows n n' ∧
      Twin C m' n' ∧ o.Rel (twinLinks C m' n').ValueRel (fun x => ¬ IsCircular x) o' := by
  obtain ⟨w, hw, rfl, o', ho, d, hd⟩ :=
    byName_twinWalk k ⟨m, n, B, htwin⟩ e hst o m' h
    (Worlds.minds_of_all _ trivial trivial o)
  exact ⟨o', w.right, w.B, hd d (Nat.le_refl d), hw.related, hw.left, hw.right, w.twin, ho⟩

end LazyModules.Eval
