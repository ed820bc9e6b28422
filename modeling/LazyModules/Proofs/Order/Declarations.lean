import LazyModules.Proofs.Order.Heaps

/-!
# The order of declarations does not matter

Two engines that read texts which differ in the order of declarations do the same things at the same time.

**Results.**
* `eval_order`: expressions that say the same come to corresponding values.
* `evaluateWith_order`: modules that mean the same come to corresponding values.
* `declaration_order_immaterial`: if the declared names of a module are different, any order of its declarations
  leads to the same text.
-/
namespace LazyModules.Engine

open Eval Worlds

/-! ## Evaluation on engines that are alike -/

/-- Engines that are alike, and what corresponds. -/
structure OrderWorld (c : Config) where
  pairs : Pairs
  left : EngineState
  right : EngineState
  alike : Alike c pairs left right

/-- Nothing stops corresponding. What fails on one side need not be followed. -/
def orderRelations (c : Config) : Relations Session Session where
  World := OrderWorld c
  left := OrderWorld.left
  right := OrderWorld.right
  le u w := u.pairs.Le w.pairs
  total := False
  heeds := False
  admits _ := True
  le_refl _ := ⟨id, id⟩
  le_trans h h' := ⟨fun hij => h'.cell (h.cell hij), fun hij => h'.ident (h.ident hij)⟩
  links w := w.pairs.links
  visit _ e e' s t := e.plain = e'.plain ∧ s = t
  links_mono h := h.links
  visit_mono _ h := h
  admits_of_not _ := trivial

def orderWalk (c : Config) : Correspondence Session Session where
  toRelations := orderRelations c
  address h := by rw [h.2]
  same _ h := h.elim
  like h := (Expr.like_of_plain h.1).imp fun _ _ hp => ⟨hp, h.2⟩
  visit_lambda h hid := ⟨hid, rfl, Expr.body_of_plain h.1, h.2⟩
  closure_id h := h.1
  params h := h.2.1
  freshId w := by
    let u : OrderWorld c := ⟨_, _, _, w.alike.useId⟩
    have hu : w.pairs.Le u.pairs := ⟨id, .inl⟩
    exact Follows.move (u := u) hu rfl (fun _ => rfl) (.inr ⟨rfl, rfl⟩)
  find := by
    rintro w name n n' s _ ⟨-, rfl⟩
    exact Relations.find_follows (orderRelations c) (w := w) rfl (w.alike.lookup? s name) False.elim
  enter := by
    rintro w f g xs ys ⟨-, hparams, hbody, hscope⟩ hxs -
    have hframe (name : String) := Table.find?_rel (callFrame_rel f.params hxs) name
    let u : OrderWorld c := ⟨_, _, _, w.alike.pushFrame hframe⟩
    have hu : w.pairs.Le u.pairs := ⟨id, id⟩
    rw [← hparams]
    refine Follows.move (u := u) hu (enter_eq _ _ _) (fun _ => enter_eq _ _ _) ⟨hbody, ?_⟩
    rw [hscope]
    exact congrArg (fun k => (⟨g.scope.address, k :: g.scope.frames⟩ : Scope)) w.alike.size

variable {c : Config} {w : OrderWorld c}

theorem oneToOne_orderWalk (w : OrderWorld c) : OneToOne ((orderWalk c).ident w) := w.alike.ident_unique

theorem delay_order {e e' : Expr} {s t : Scope} (h : (orderWalk c).visit w e e' s t) :
    (orderWalk c).Follows w (orderWalk c).SlotRel (delay s e) fun _ => delay t e' := by
  refine Correspondence.delay_follows (K := orderWalk c) (w := w) h ?_
  obtain ⟨hplain, rfl⟩ := h
  let u : OrderWorld c := ⟨_, _, _, w.alike.pushCell (.expr hplain s)⟩
  exact ⟨u, ⟨.inl, id⟩, rfl, rfl, .inr ⟨rfl, rfl⟩⟩

/-- Imports come to corresponding values. -/
def Carries (c : Config) (load : Loader Session) : Prop :=
  ∀ (w : OrderWorld c) (importer name target : String),
    (orderWalk c).Follows w (orderWalk c).ValueRel (load importer name target) fun _ => load importer name target

/-- Expressions that say the same come to corresponding values. -/
def Agrees (c : Config) (ev : Evaluator Session) : Prop :=
  ∀ (w : OrderWorld c) (e e' : Expr) (s : Scope), e.plain = e'.plain →
    (orderWalk c).Follows w (orderWalk c).ValueRel (ev e s) fun _ => ev e' s

section Forcing

variable {load : Loader Session} {ev : Evaluator Session}

theorem runJob_order (hload : Carries c load) (hev : Agrees c ev) {job job' : Job} (h : JobRel job job') :
    (orderWalk c).Follows w (orderWalk c).ValueRel (runJob load ev job) fun _ => runJob load ev job' := by
  cases h with
  | expr h s => exact hev w _ _ s h
  | load importer name target => exact hload w importer name target

theorem demandable_order (hload : Carries c load) (hev : Agrees c ev) {i j : Nat} (hij : w.pairs.cell i j) :
    Correspondence.Demandable (K := orderWalk c) w (runJob load ev) (fun _ => runJob load ev) i j := by
  obtain ⟨x, y, hx, hy, hxy⟩ := w.alike.cells hij
  cases hxy with
  | busy h => exact .busy hx hy
  | done h hab => exact .done hx hy hab
  | @waiting job job' hjob =>
    let u : OrderWorld c := ⟨_, _, _, w.alike.setCell hij (.busy hjob)⟩
    refine .waiting u hx hy rfl rfl (runJob_order hload hev hjob) (fun v hv a b hab => ?_) fun v hv => ?_
    · have hij' : v.pairs.cell i j := hv.cell hij
      exact ⟨⟨_, _, _, v.alike.setCell hij' (.done hjob hab)⟩, hv, rfl, rfl, hab⟩
    · have hij' : v.pairs.cell i j := hv.cell hij
      exact ⟨⟨_, _, _, v.alike.setCell hij' (.waiting hjob)⟩, hv, rfl, rfl⟩

theorem force_order (hload : Carries c load) (hev : Agrees c ev) {x y : Slot} (hxy : (orderWalk c).SlotRel w x y) :
    (orderWalk c).Follows w (orderWalk c).ValueRel (forceWith load ev x) fun _ => forceWith load ev y := by
  cases hxy with
  | constant c => exact Follows.pure (.constant c)
  | closure h => exact Follows.pure (.function h)
  | cell h => exact Correspondence.demand_follows trivial (demandable_order hload hev h)

theorem look_order (hload : Carries c load) (hev : Agrees c ev) (s : Scope) (name : String) {x y : Slot}
    (hxy : (orderWalk c).SlotRel w x y) :
    (orderWalk c).Follows w (orderWalk c).ValueRel (lookWith (forceWith load ev) s name x) fun _ =>
      lookWith (forceWith load ev) s name y := by
  have hforce := force_order hload hev hxy
  cases hxy with
  | constant c => exact hforce
  | closure h => exact hforce
  | @cell i j hij =>
    obtain ⟨x, y, hx, hy, hstate⟩ := w.alike.cells hij
    have hbusy : (orderWalk c).Follows w (fun u b b' => b = b' ∧ u = w) (Machine.isBusy i) fun _ =>
        Machine.isBusy j := by
      refine Follows.move ((orderWalk c).le_refl w) rfl (fun _ => rfl) ⟨?_, rfl⟩
      change w.left.cells[i]?.any Cell.isBusy = w.right.cells[j]?.any Cell.isBusy
      rw [hx, hy]
      cases hstate <;> rfl
    refine Follows.bind hbusy fun u _ b b' hb => ?_
    obtain ⟨rfl, rfl⟩ := hb
    cases b with
    | true => exact Follows.fail trivial
    | false => exact hforce

/-- A walker by need keeps what corresponds. -/
theorem walker_order (hload : Carries c load) (hev : Agrees c ev) (depth : Nat) :
    (orderWalk c).Respects (Eval.walker load depth ev) fun _ => Eval.walker load depth ev where
  strict := by
    rintro w e e' s _ ⟨hplain, rfl⟩
    exact hev w e e' s hplain
  delay := delay_order
  force := force_order hload hev
  look := by
    rintro w name n n' s _ x y ⟨-, rfl⟩ hxy
    exact look_order hload hev s name hxy
  compare := Correspondence.compareWith_follows (Correspondence.blind_renamed oneToOne_orderWalk)
    (Correspondence.equal_of_renamed oneToOne_orderWalk) (force_order hload hev) depth
    ⟨0, fun _ _ => ⟨Nat.le_refl _, False.elim⟩⟩

end Forcing

/-- Expressions that say the same come to corresponding values. -/
theorem eval_order {load : Loader Session} (hload : Carries c load) (depth : Nat) : Agrees c (eval load depth) := by
  induction depth with
  | zero => exact fun _ _ _ _ _ => Follows.of_exhaust id
  | succ depth ih =>
    intro w e e' s hplain
    exact Correspondence.step_follows (K := orderWalk c) (w := w) (walker_order hload ih depth) ⟨hplain, rfl⟩

theorem byNeed_order {load : Loader Session} (hload : Carries c load) (depth : Nat) :
    (orderWalk c).Respects (byNeed load depth) fun _ => byNeed load depth :=
  walker_order hload (eval_order hload depth) depth

/-! ## Engines that are alike -/

theorem modify_order {f g : Session → Session}
    (h : SessionRel c w.pairs.links (f w.left.rest.outer) (g w.right.rest.outer)) :
    (orderWalk c).Follows w (fun _ _ _ => True) (modify f) fun _ => modify g := by
  let u : OrderWorld c := ⟨w.pairs, _, _, w.alike.setOuter h⟩
  exact Follows.move (u := u) ((orderWalk c).le_refl w) rfl (fun _ => rfl) trivial

theorem session_order :
    (orderWalk c).Follows w (fun u s s' => u = w ∧ s = w.left.rest.outer ∧ s' = w.right.rest.outer) session
      fun _ => session :=
  Follows.move ((orderWalk c).le_refl w) rfl (fun _ => rfl) ⟨rfl, rfl, rfl⟩

theorem note_order (e : Event) : (orderWalk c).Follows w (fun _ _ _ => True) (note e) fun _ => note e :=
  modify_order { w.alike.session with }

theorem info_order (words : List String) :
    (orderWalk c).Follows w (fun _ _ _ => True) (withLibrary (Library.info words)) fun _ =>
      withLibrary (Library.info words) := by
  have hs : SessionRel c w.pairs.links (w.left.rest.outer.setLibrary (Library.info words w.left.rest.outer.library).2)
      (w.right.rest.outer.setLibrary (Library.info words w.right.rest.outer.library).2) := by
    refine { w.alike.session with offers := fun a => ?_ }
    have h := w.alike.session.offers a
    rwa [← Library.offer_report, ← Library.offer_report w.right.rest.outer.library] at h
  let u : OrderWorld c := ⟨w.pairs, _, _, w.alike.setOuter hs⟩
  exact Follows.move (u := u) ((orderWalk c).le_refl w) (withLibrary_eq _ _) (fun _ => withLibrary_eq _ _) trivial

/-- Modules that mean the same are kept. -/
theorem SessionRel.store {L : Links} {s s' : Session} {m m' : Module} (h : SessionRel c L s s')
    (haddress : m.address = m'.address) (hm : m.Alike m') : SessionRel c L (s.store m) (s'.store m') := by
  refine { h with modules := fun a => ?_ }
  simp only [Session.store, Session.note, Table.find?_insert, haddress]
  split
  · exact .some hm
  · exact h.modules a

/-- Both libraries have been asked for a text. -/
theorem SessionRel.asked {L : Links} {s s' : Session} (h : SessionRel c L s s') (address : String) :
    SessionRel c L ((s.consultAll address).setLibrary (asked address s))
      ((s'.consultAll address).setLibrary (Engine.asked address s')) := by
  refine { h with offers := fun a => ?_ }
  have hoffers := h.offers a
  rwa [← Library.offer_getOrLoad s.library address, ← Library.offer_getOrLoad s'.library address] at hoffers

/-- Texts that say the same are read on both sides. -/
theorem parse_order (address : String) :
    (orderWalk c).Follows w (fun _ m m' => m.Alike m') (parse c address) fun _ => parse c address := by
  refine Follows.of_ok id id fun m h heq => ?_
  change parse c address w.left = (.ok m, h) at heq
  obtain ⟨s, hs, hreads⟩ := parse_reads c address w.left
  rw [heq] at hs hreads
  obtain rfl : h = Heap.setOuter w.left s := hs
  have hmodules := w.alike.session.modules address
  cases hreads with
  | unread _ ho _ => rcases ho with ho | ⟨a, ho⟩ <;> cases ho
  | known hm =>
    rw [hm] at hmodules
    generalize hfound : Table.find? w.right.rest.outer.modules address = found at hmodules
    cases hmodules with
    | some hm => exact ⟨w, (orderWalk c).le_refl w, rfl, _, hm, fun _ => parse_of_known hfound⟩
  | stored hnew hoffer hmodule =>
    have hnew' : Table.find? w.right.rest.outer.modules address = none := by
      rw [hnew] at hmodules
      generalize Table.find? w.right.rest.outer.modules address = found at hmodules
      cases hmodules with
      | none => rfl
    obtain ⟨points', m', hoffer', hmodule', hm⟩ := w.alike.session.offers address _ _ hoffer hmodule
    have haddress : m.address = m'.address := by
      rw [address_of_moduleOf hmodule, address_of_moduleOf hmodule']
    let u : OrderWorld c := ⟨w.pairs, _, _, w.alike.setOuter ((w.alike.session.asked address).store haddress hm)⟩
    exact ⟨u, (orderWalk c).le_refl w, rfl, m', hm, fun _ => parse_of_new hnew' hoffer' hmodule'⟩

section Modules

variable {load : Loader Session} {depth : Nat} {m m' : Module}

/-- Modules that mean the same get scopes at the same place. -/
theorem moduleScope_order (address : String) (hm : m.Alike m') :
    (orderWalk c).Follows w (fun _ s t => s = t) (moduleScope (byNeed load depth) address m) fun _ =>
      moduleScope (byNeed load depth) address m' := by
  have hlaid : Laid address m m' w.left w.right _ _ :=
    ⟨Ground.fits_layout (ground w.left address) m _, Ground.fits_layout (ground w.right address) m' _, hm⟩
  let u : OrderWorld c := ⟨_, _, _, w.alike.lay hlaid⟩
  have hu : w.pairs.Le u.pairs := ⟨.inl, .inl⟩
  have hscope : (ground w.left address).scope = (ground w.right address).scope := by
    simp only [Ground.scope, ground, w.alike.size]
  exact Follows.move (u := u) hu (moduleScope_eq fun _ _ _ _ => rfl)
    (fun _ => moduleScope_eq fun _ _ _ _ => rfl) hscope

theorem evaluateBody_order (hload : Carries c load) (address : String) (hm : m.Alike m') :
    (orderWalk c).Follows w (orderWalk c).ValueRel (evaluateBody (byNeed load depth) address m) fun _ =>
      evaluateBody (byNeed load depth) address m' := by
  refine Follows.bind (moduleScope_order address hm) fun u _ s t hst => ?_
  obtain rfl : s = t := hst
  have hbody := hm.body
  cases he : m.body with
  | none =>
    rw [he] at hbody
    rw [Option.map_eq_none_iff.mp hbody.symm]
    exact Follows.pure (.constant .nil)
  | some e =>
    rw [he] at hbody
    obtain ⟨e', he', hplain⟩ := Option.map_eq_some_iff.mp hbody.symm
    rw [he']
    exact (byNeed_order hload depth).strict ⟨hplain.symm, rfl⟩

theorem handleTrouble_fails (address : String) (t : Trouble) : (handleTrouble address t).Fails := by
  intro h
  cases t with
  | semantic e =>
    obtain ⟨t, s, heq, -⟩ := blame_blames (α := Value) e address
      (Heap.setOuter h (h.rest.outer.markFailed address))
    exact ⟨t, _, heq⟩
  | reported phase => exact ⟨_, _, rfl⟩
  | accident a => exact ⟨_, _, rfl⟩

theorem handleParseTrouble_fails (address : String) (t : Trouble) : (handleParseTrouble address t).Fails := by
  intro h
  cases t <;> exact ⟨_, _, rfl⟩

theorem evaluateModule_order (hload : Carries c load) (address : String) (hm : m.Alike m') :
    (orderWalk c).Follows w (orderWalk c).ValueRel (evaluateModule (byNeed load depth) address m) fun _ =>
      evaluateModule (byNeed load depth) address m' := by
  have hbody (u : OrderWorld c) : (orderWalk c).Follows u (orderWalk c).ValueRel
      (((evaluateBody (byNeed load depth) address m).tryCatch (handleTrouble address)).ensure (pop address)) fun _ =>
      ((evaluateBody (byNeed load depth) address m').tryCatch (handleTrouble address)).ensure (pop address) := by
    refine Follows.ensure ?_ (fun hle _ _ => Links.ValueRel.mono hle.links) fun v hv => ?_
    · exact Follows.tryCatch (evaluateBody_order hload address hm) (.inr (handleTrouble_fails address))
        fun _ _ t _ => Follows.of_fails id (handleTrouble_fails address t)
    · have hs : SessionRel c v.pairs.links (v.left.rest.outer.leave address) (v.right.rest.outer.leave address) :=
        { v.alike.session with evaluating := congrArg List.dropLast v.alike.session.evaluating }
      exact ⟨⟨v.pairs, _, _, v.alike.setOuter hs⟩, (orderWalk c).le_refl v, rfl, rfl⟩
  refine Follows.bind (info_order _) fun u _ _ _ _ => ?_
  have henter : SessionRel c u.pairs.links (u.left.rest.outer.enter address) (u.right.rest.outer.enter address) :=
    { u.alike.session with evaluating := congrArg (· ++ [address]) u.alike.session.evaluating }
  refine Follows.bind (modify_order henter) fun u' _ _ _ _ => Follows.bind (hbody u') fun v _ a b hab => ?_
  have hvalue : SessionRel c v.pairs.links (v.left.rest.outer.setValue address a)
      (v.right.rest.outer.setValue address b) := by
    refine { v.alike.session with values := fun n => ?_ }
    simp only [Session.setValue, Session.note, Table.find?_insert]
    split
    · exact .some hab
    · exact v.alike.session.values n
  exact Follows.bind (modify_order hvalue) fun v' hv' _ _ _ => Follows.pure (hab.mono hv'.links)

/-- Modules that mean the same come to corresponding values. -/
theorem evaluateWith_order (hload : Carries c load) (address : String) :
    (orderWalk c).Follows w (orderWalk c).ValueRel (evaluateWith c (byNeed load depth) address) fun _ =>
      evaluateWith c (byNeed load depth) address := by
  refine Follows.bind (note_order _) fun u _ _ _ _ => Follows.bind session_order fun u' _ s s' hs => ?_
  obtain ⟨rfl, rfl, rfl⟩ := hs
  have hvalue := u'.alike.session.values address
  generalize Table.find? u'.left.rest.outer.values address = x,
    Table.find? u'.right.rest.outer.values address = y at hvalue
  cases hvalue with
  | some hab => exact Follows.pure hab
  | none =>
    refine Follows.bind (Follows.tryCatch (parse_order address) (.inr (handleParseTrouble_fails address))
      fun _ _ t _ => Follows.of_fails id (handleParseTrouble_fails address t)) fun v _ m m' hm => ?_
    exact evaluateModule_order hload address hm

end Modules

theorem load_order (c : Config) (nesting : Nat) : Carries c (load c byNeed nesting) := by
  induction nesting with
  | zero => exact fun _ _ _ _ => Follows.of_exhaust id
  | succ nesting ih =>
    intro w importer name target
    refine Follows.bind session_order fun u _ s s' hs => ?_
    obtain ⟨rfl, rfl, rfl⟩ := hs
    rw [u.alike.session.evaluating]
    split
    · exact Follows.of_fails id fun _ => ⟨_, _, rfl⟩
    · exact evaluateWith_order ih target

/-- A module is shown by the same text on both sides. -/
theorem render_order (c : Config) (w : OrderWorld c) (address : String) :
    (orderWalk c).Follows w (fun _ => Eq) (render c address) fun _ => render c address := by
  have hload := load_order c c.depth
  have hforce {u : OrderWorld c} {x y : Slot} := (byNeed_order hload c.depth).force (w := u) (x := x) (y := y)
  have hfails (t : Trouble) : Computation.Fails (handleShown address t) := by
    intro h
    cases t with
    | semantic e =>
      obtain ⟨t, s, heq, -⟩ := blame_blames (α := String) e address h
      exact ⟨t, _, heq⟩
    | reported phase => exact ⟨_, _, rfl⟩
    | accident a => exact ⟨_, _, rfl⟩
  refine Follows.bind (evaluateWith_order hload address) fun u _ a b hab => ?_
  exact Follows.tryCatch (Correspondence.displayWith_follows oneToOne_orderWalk hforce c.depth hab) (.inr hfails)
    fun _ _ t _ => Follows.of_fails id (hfails t)

/-! ## Texts in another order -/

/-- Texts that differ in the order of their declarations, whose names are different, and in nothing else. -/
structure Reordered (c : Config) (text text' : String) : Prop where
  imports : Imports.read text = Imports.read text'
  said : ∃ m m', (c.read text).said? = some m ∧ (c.read text').said? = some m' ∧
    m.body.map Expr.plain = m'.body.map Expr.plain ∧ (m.declarations.map Declaration.name).Nodup ∧
      (m.declarations.map Declaration.plain).Perm (m'.declarations.map Declaration.plain)

/-- What libraries have to offer differs in the order of declarations at most. -/
def OffersReordered (c : Config) (l l' : Library) : Prop :=
  ∀ a, l.offer a = l'.offer a ∨ ∃ points points', l.offer a = .ok (.text points) ∧
    l'.offer a = .ok (.text points') ∧ Reordered c (Text.legible points) (Text.legible points')

theorem Reordered.symm {text text' : String} (h : Reordered c text text') : Reordered c text' text := by
  obtain ⟨m, m', hm, hm', hbody, hnodup, hperm⟩ := h.said
  refine ⟨h.imports.symm, m', m, hm', hm, hbody.symm, ?_, hperm.symm⟩
  rw [← Declaration.map_name_plain] at hnodup ⊢
  exact (hperm.map Declaration.name).nodup_iff.mp hnodup

theorem OffersReordered.symm {l l' : Library} (h : OffersReordered c l l') : OffersReordered c l' l := by
  intro a
  rcases h a with h | ⟨points, points', hp, hp', h⟩
  · exact .inl h.symm
  · exact .inr ⟨points', points, hp', hp, h.symm⟩

/-- Texts that differ in the order of declarations hold modules that mean the same. -/
theorem Reordered.alike {text text' address : String} {m : Module} (h : Reordered c text text')
    (hm : moduleOf c address text = some m) : ∃ m', moduleOf c address text' = some m' ∧ m.Alike m' := by
  obtain ⟨said, said', hsaid, hsaid', hbody, hnodup, hperm⟩ := h.said
  obtain ⟨said, hsame, hm⟩ := Option.bind_eq_some_iff.mp hm
  obtain rfl := Option.some.inj (hsaid.symm.trans hsame)
  obtain ⟨imports, himports, rfl⟩ := Option.map_eq_some_iff.mp hm
  rw [h.imports] at himports
  refine ⟨⟨address, imports, said'.declarations, said'.body⟩, ?_, Module.alike_of_perm rfl hbody hnodup hperm⟩
  simp only [moduleOf, hsaid', himports, Option.bind_some, Option.map_some]

theorem OffersReordered.saysSame {l l' : Library} (h : OffersReordered c l l') (a : String) :
    SaysSame c a (l.offer a) (l'.offer a) := by
  intro points m hoffer hm
  rcases h a with heq | ⟨points, points', hp, hp', hreordered⟩
  · exact ⟨points, m, heq ▸ hoffer, hm, fun _ => rfl, rfl⟩
  · obtain rfl := Document.text.inj (Outcome.ok.inj (hp.symm.trans hoffer))
    obtain ⟨m', hm', hsame⟩ := hreordered.alike hm
    exact ⟨points', m', hp', hm', hsame⟩

theorem alike_start {l l' : Library} (h : OffersReordered c l l') :
    Alike c ⟨fun _ _ => False, fun _ _ => False⟩ (.start l) (.start l') where
  cells := False.elim
  cell_unique := ⟨False.elim⟩
  idents := False.elim
  ident_unique := ⟨False.elim⟩
  size := rfl
  frames _ _ := .none
  session := ⟨fun _ => .none, fun _ => .none, rfl, h.saysSame⟩

theorem render_of_offersReordered {l l' : Library} (h : OffersReordered c l l') {address text : String}
    (hrender : (render c address (EngineState.start l)).1 = .ok text) :
    (render c address (EngineState.start l')).1 = .ok text := by
  let w : OrderWorld c := ⟨_, _, _, alike_start h⟩
  obtain ⟨_, -, -, o, ho, n, hn⟩ := render_order c w address (.ok text) _ (Prod.ext hrender rfl) trivial
  cases ho with
  | ok htext =>
    obtain rfl := htext
    exact congrArg Prod.fst (hn n (Nat.le_refl n))

/-- The order of declarations does not matter. If the texts at some addresses have their declarations in another
order, with different names each, and nothing else is different, a module is shown by the same text. -/
theorem declaration_order_immaterial {l l' : Library} (h : OffersReordered c l l') (address text : String) :
    (render c address (EngineState.start l)).1 = .ok text ↔ (render c address (EngineState.start l')).1 = .ok text :=
  ⟨render_of_offersReordered h, render_of_offersReordered h.symm⟩

/-- Whether a computation has a given result can be told if results can be told apart. -/
instance decidableEqOk {ε α : Type} [DecidableEq α] (a : α) : (o : Outcome ε α) → Decidable (o = .ok a)
  | .ok b => decidable_of_iff (b = a) ⟨congrArg Outcome.ok, Outcome.ok.inj⟩
  | .error _ => isFalse (by simp)
  | .exhausted => isFalse (by simp)

/-- A library with one text, at the address `m`. -/
def holding (text : String) : Library :=
  ⟨⟨none, [], [("m", .text (Text.pointsOf text))]⟩, .empty false, ⟨.empty, [], []⟩⟩

theorem offersReordered_holding {text text' : String}
    (h : Reordered c (Text.legible (Text.pointsOf text)) (Text.legible (Text.pointsOf text'))) :
    OffersReordered c (holding text) (holding text') := by
  intro a
  by_cases ha : a = "m"
  · obtain rfl := ha
    exact .inr ⟨_, _, Library.offer_of_loaded rfl, Library.offer_of_loaded rfl, h⟩
  · have hnone (text : String) : Table.find? (holding text).cache.loaded a = none := by
      simp [holding, ha, Table.find?]
    rw [Library.offer_eq, Library.offer_eq, hnone, hnone]
    exact .inl rfl

/-- A function, a list that contains itself and a number, declared in this order and in the reverse order. -/
theorem declaration_order_immaterial_reverse :
    let c : Config := ⟨Reading.ofText, 20⟩
    let l := holding "f = x => [x, s] s = [a, s] a = 2 f(a)"
    let l' := holding "a = 2 s = [a, s] f = x => [x, s] f(a)"
    OffersReordered c l l' ∧ (render c "m" (EngineState.start l)).1 = .ok "[2, [2, ...]]" ∧
      (render c "m" (EngineState.start l')).1 = .ok "[2, [2, ...]]" := by
  intro c l l'
  have hreordered : OffersReordered c l l' := by
    refine offersReordered_holding ⟨?_, ?_⟩
    · decide +kernel
    · refine ⟨⟨[], [⟨"f", .lambda ["x"] (.list [.lookup "x" 10, .lookup "s" 13] 9) 6⟩,
          ⟨"s", .list [.lookup "a" 21, .lookup "s" 24] 20⟩, ⟨"a", .literal (.int 2) 31⟩],
          some (.call (.lookup "f" 33) [.lookup "a" 35] 34)⟩,
        ⟨[], [⟨"a", .literal (.int 2) 4⟩, ⟨"s", .list [.lookup "a" 11, .lookup "s" 14] 10⟩,
          ⟨"f", .lambda ["x"] (.list [.lookup "x" 27, .lookup "s" 30] 26) 23⟩],
          some (.call (.lookup "f" 33) [.lookup "a" 35] 34)⟩, ?_, ?_, rfl, ?_, ?_⟩
      · rfl
      · rfl
      · decide
      · exact (List.reverse_perm _).symm
  have hrender : (render c "m" (EngineState.start l)).1 = .ok "[2, [2, ...]]" := by decide +kernel
  exact ⟨hreordered, hrender, (declaration_order_immaterial hreordered "m" _).mp hrender⟩

end LazyModules.Engine
