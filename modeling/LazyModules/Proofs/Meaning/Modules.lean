import LazyModules.Proofs.Engine.Marks
import LazyModules.Proofs.Meaning.Expressions
import LazyModules.Proofs.Meaning.Layouts

/-!
# Modules and what they mean

**Results.** `evaluateWith_tracks`: the value of a module means what the module means in every program that has the
modules read so far. `loader_tracks`: so it is with imports, as deep as they nest.
-/
namespace LazyModules.Meaning

open Engine

variable {c : Config} {w : World c}

/-! ## Sessions -/

section Sessions

variable {s : Session}

/-- A world with another session. What counts as failed there did so before or has no value in any program. -/
def World.reword (w : World c) (hs : Rewords c w.session s)
    (hfailed : ∀ {a}, a ∈ s.failed → a ∈ w.session.failed ∨ ∀ {P}, Compat c P s → ∀ d, ¬ Succeeds P d (.module a)) :
    World c where
  map := w.map
  heap := Heap.setOuter w.heap s
  current := w.current
  count := w.count
  valid := w.valid.setOuter hs
  failed ha := by
    intro P hP d hd
    rcases hfailed ha with ha | hnone
    · obtain ⟨q, hq, hd'⟩ := w.failed ha (hs.compat hP) hd
      exact ⟨q, hs.task_iff.mpr hq, hd'⟩
    · exact absurd hd (hnone hP d)

theorem World.le_reword (hs : Rewords c w.session s) {hfailed}
    (hstill : ∀ {a}, a ∈ w.session.failed → a ∈ s.failed) : w.Le (w.reword hs hfailed) where
  map := ⟨id, id, id, id⟩
  busy := hs.task_iff
  jobs hy := ⟨_, hy, rfl⟩
  evaluating := hs.evaluating
  current := rfl
  count _ _ := rfl
  loaded := hs.loaded
  failed := hstill

theorem rewords_note (s : Session) (e : Event) : Rewords c s (s.note e) := ⟨rfl, rfl, .refl _, .inl⟩

/-- The state of a module, and nothing else, is different in another session. -/
theorem turns_setOuter {m : Map} {h : EngineState} {a : String} {p : Progress}
    (hloaded : Table.Gains h.rest.outer.library.cache.loaded s.library.cache.loaded)
    (hmodules : s.modules = h.rest.outer.modules)
    (hevaluating : ∀ {b}, b ∈ s.evaluating → Table.find? s.values b = none)
    (hself : s.progress a = p) (hothers : ∀ {b}, b ≠ a → s.progress b = h.rest.outer.progress b) :
    Turns m (.module a) p h (Heap.setOuter h s) where
  frames := rfl
  nextId := rfl
  jobs hy := ⟨_, hy, rfl⟩
  loaded := hloaded
  modules := hmodules
  evaluating := hevaluating
  now := .module a hself
  task := by
    intro q' p' hq'
    cases hq' with
    | @cell i y z hy hz _ hp =>
      have hz : h.cells[i]? = some z := hz
      exact .inr ⟨nofun, .cell hy hz hp⟩
    | module b hp =>
      by_cases hb : b = a
      · subst hb
        exact .inl ⟨rfl, hp.symm.trans hself⟩
      · exact .inr ⟨fun heq => hb (Question.module.inj heq), .module b ((hothers hb).symm.trans hp)⟩
  others := by
    intro q' p' hne hq'
    cases hq' with
    | @cell i y z hy hz _ hp =>
      have hz : (Heap.setOuter h s).cells[i]? = some z := hz
      exact .cell hy hz hp
    | module b hp =>
      have hb : b ≠ a := fun heq => hne (congrArg Question.module heq)
      exact .module b ((hothers hb).trans hp)

end Sessions

/-! ## The body of a module -/

/-- The body of a module that has just begun. -/
theorem evaluateBody_tracks {W : Eval.Walker Session} (hstrict : EvalTracks c W.strict) (hdelay : W.delay = Eval.delay)
    {a : String} {x : Module} (hbusy : w.Task (.module a) .busy)
    (hfirst : ∀ {o}, w.map.used o → ¬ o.From (.module a)) (hsaid : ∀ {P}, Compat c P w.session → P a = some x)
    (hcurrent : w.current = .module a) :
    Tracks w World.ValueRel (evaluateBody W a x) fun P d => body (answer P d) x a := by
  have hle := World.le_extend (World.extension_layout hbusy hfirst hsaid) fun _ _ => rfl
  have hscope : moduleScope W a x w.heap = (.ok (ground w.heap a).scope, w.heapLayout a x) :=
    moduleScope_eq fun _ _ _ _ => by rw [hdelay]
  refine .prepend hle hscope rfl rfl ?_
  unfold body
  cases hbody : x.body with
  | none => exact .pure .nil
  | some e =>
    refine hstrict _ e _ _ ⟨.inr ⟨rfl, rfl⟩, fun name o ho hfrom => ?_⟩
    obtain rfl : o = .module a := hfrom
    exact .inl hcurrent

/-! ## From beginning to end -/

theorem progress_of_mem {s : Session} {a : String} (hvalue : Table.find? s.values a = none) (ha : a ∈ s.evaluating) :
    s.progress a = .busy := by
  simp only [Session.progress, hvalue, if_pos ha]

theorem progress_of_not_mem {s : Session} {a : String} (hvalue : Table.find? s.values a = none)
    (ha : a ∉ s.evaluating) : s.progress a = .waiting := by
  simp only [Session.progress, hvalue, if_neg ha]

/-- A module begins. -/
theorem turns_enter {a : String} (hvalue : Table.find? w.session.values a = none) {l : Library}
    (hl : Table.Gains w.session.library.cache.loaded l.cache.loaded) :
    Turns w.map (.module a) .busy w.heap (Heap.setOuter w.heap ((w.session.setLibrary l).enter a)) := by
  have hmem : a ∈ ((w.session.setLibrary l).enter a).evaluating := List.mem_append_right _ (List.mem_singleton_self a)
  refine turns_setOuter hl rfl (fun {b} hb => ?_) (progress_of_mem hvalue hmem) fun {b} hb => ?_
  · rcases List.mem_append.mp hb with hb | hb
    · exact w.valid.evaluating hb
    · obtain rfl := List.mem_singleton.mp hb
      exact hvalue
  · simp [Session.progress, Session.enter, Session.setLibrary, Session.note, hb]

section Leaving

variable {u : World c} {a : String} {before : List String} (hbefore : u.session.evaluating = before ++ [a])
  (ha : a ∉ before)
include hbefore ha

/-- A module ends without a value. -/
theorem turns_leave {s : Session} (hvalues : s.values = u.session.values) (hevaluating : s.evaluating = before)
    (hmodules : s.modules = u.session.modules)
    (hloaded : Table.Gains u.session.library.cache.loaded s.library.cache.loaded) :
    Turns u.map (.module a) .waiting u.heap (Heap.setOuter u.heap s) := by
  have hnone {b : String} (hb : b ∈ before ++ [a]) : Table.find? s.values b = none := by
    rw [hvalues]
    exact u.valid.evaluating (hbefore ▸ hb)
  refine turns_setOuter hloaded hmodules (fun {b} hb => hnone (List.mem_append_left _ (hevaluating ▸ hb)))
    (progress_of_not_mem (hnone (List.mem_append_right _ (List.mem_singleton_self a))) (hevaluating ▸ ha))
    fun {b} hb => ?_
  simp only [Session.progress, hvalues, hevaluating, hbefore, List.mem_append, List.mem_singleton, hb, or_false]

/-- A module ends with a value. -/
theorem turns_setValue (v : LazyModules.Value) :
    Turns u.map (.module a) (.done v) u.heap (Heap.setOuter u.heap ((u.session.leave a).setValue a v)) := by
  have hevaluating : ((u.session.leave a).setValue a v).evaluating = before := by
    change u.session.evaluating.dropLast = before
    rw [hbefore, List.dropLast_concat]
  have hvalues (b : String) : Table.find? ((u.session.leave a).setValue a v).values b =
      if b = a then some v else Table.find? u.session.values b := Table.find?_insert _ _ _ _
  refine turns_setOuter (.refl _) rfl (fun {b} hb => ?_) ?_ fun {b} hb => ?_
  · rw [hevaluating] at hb
    have hne : b ≠ a := fun heq => ha (heq ▸ hb)
    rw [hvalues, if_neg hne]
    exact u.valid.evaluating (hbefore ▸ List.mem_append_left _ hb)
  · simp only [Session.progress, hvalues, if_true]
  · simp only [Session.progress, hvalues, hevaluating, hbefore, List.mem_append, List.mem_singleton, hb, or_false,
      if_false]

/-- What becomes of a module when its body has come to an end. -/
theorem windUp_concludes (o : Outcome Trouble LazyModules.Value) :
    ∃ o' s, windUp a (o, u.heap) = (o', Heap.setOuter u.heap s) ∧ s.evaluating = before ∧
      Concludes u.map u.heap (.module a) (Heap.setOuter u.heap s) o o' := by
  obtain ⟨o', s, heq, hsettles⟩ := windUp_settles a (o, u.heap)
  have hevaluating : s.evaluating = before := by
    rw [hsettles.evaluating_eq, hbefore, List.dropLast_concat]
  have hfailed {b : String} : b ∈ s.failed ↔ b ∈ u.session.failed ∨ b = a ∧ o.Faulty := by
    have hwind : b ∈ (windUp a (o, u.heap)).2.rest.outer.failed ↔ _ := windUp_failed
    rwa [heq] at hwind
  have hstill {b : String} (hb : b ∈ u.session.failed) : b ∈ s.failed := hfailed.mpr (.inl hb)
  have hnew {b : String} (hb : b ∈ s.failed) : b ∈ u.session.failed ∨ Question.module a = .module b :=
    (hfailed.mp hb).imp id fun hb => congrArg Question.module hb.1.symm
  refine ⟨o', s, heq, hevaluating, ?_⟩
  cases hsettles with
  | valued v => exact .value (turns_setValue hbefore ha v) rfl
  | blamed h =>
    exact .failed nofun (fun hlost => nomatch hlost) nofun
      (turns_leave hbefore ha h.values_eq hevaluating h.modules_eq h.grows.loaded) hstill hnew
  | reported phase failed =>
    exact .failed nofun (fun hlost => nomatch hlost) nofun
      (turns_leave hbefore ha rfl hevaluating rfl (.refl _)) hstill hnew
  | accident t => exact .nothing nofun (turns_leave hbefore ha rfl hevaluating rfl (.refl _)) rfl
  | exhausted => exact .nothing nofun (turns_leave hbefore ha rfl hevaluating rfl (.refl _)) rfl

end Leaving

section Evaluating

variable {W : Eval.Walker Session} {a : String}

/-- A module that has been read is brought to its value. -/
theorem evaluateModule_tracks (hstrict : EvalTracks c W.strict) (hdelay : W.delay = Eval.delay) {x : Module}
    (hvalue : Table.find? w.session.values a = none) (hnot : a ∉ w.session.evaluating)
    (hsaid : ∀ {P}, Compat c P w.session → P a = some x) :
    Tracks w World.ValueRel (evaluateModule W a x) fun P d => answer P d (.module a) := by
  have hq : w.Task (.module a) .waiting := .module a (progress_of_not_mem hvalue hnot)
  have ht := turns_enter hvalue (announced_tells a w.session.library).grows.loaded
  have hbody := evaluateBody_tracks (w := w.begin hq ht rfl) hstrict hdelay ht.now (w.valid.waiting hq)
    (fun hP => hsaid (ht.compat hP)) rfl
  obtain ⟨o, u, hrun, hle, hends⟩ := hbody
  obtain ⟨o', s, hwind, hevaluating, hconcludes⟩ := windUp_concludes hle.evaluating hnot o
  have hanswer {P : Program} (hP : Compat c P u.session) (d : Nat) :
      answer P (d + 1) (.module a) = within (.module a) (body (answer P d) x a) := by
    simp only [answer, hsaid (ht.compat (hle.compat hP))]
  obtain ⟨w', hheap, hle', hends'⟩ :=
    exists_after_task hq ht rfl (fun _ _ => False.elim) hle hends hanswer hconcludes hevaluating
  refine ⟨o', w', ?_, hle', hends'⟩
  rw [evaluateModule_eq, hheap, ← hwind]
  exact congrArg (windUp a) hrun

theorem rewords_asked (s : Session) (a : String) (e : Event) :
    Rewords c s ((s.note e).setLibrary (asked a s)) :=
  ⟨rfl, rfl, (Library.getOrLoad_loads a s.library).gains, .inl⟩

/-- A text that is refused has no meaning. -/
theorem not_succeeds_of_none {P : Program} (hP : P a = none) (d : Nat) : ¬ Succeeds P d (.module a) := by
  rintro ⟨p, r, hr⟩
  cases d with
  | zero => cases hr
  | succ d =>
    simp only [answer, hP, within] at hr
    cases hr

/-- A module is read, if that has not been done, and brought to its value. -/
theorem readAndEvaluate_tracks (hstrict : EvalTracks c W.strict) (hdelay : W.delay = Eval.delay)
    (hvalue : Table.find? w.session.values a = none) (hnot : a ∉ w.session.evaluating) :
    Tracks w World.ValueRel (((parse c a).tryCatch (handleParseTrouble a)).bind (evaluateModule W a)) fun P d =>
      answer P d (.module a) := by
  obtain ⟨s, hs, hreads⟩ := parse_reads c a w.heap
  rcases hparse : parse c a w.heap with ⟨o, h⟩
  rw [hparse] at hs hreads
  obtain rfl : h = Heap.setOuter w.heap s := hs
  have hloads := Library.getOrLoad_loads a w.session.library
  cases hreads with
  | @known x hx =>
    refine .after (.refl w) ?_ rfl rfl (evaluateModule_tracks hstrict hdelay (x := x) hvalue hnot fun hP => ?_)
    · simp only [Computation.bind, Computation.tryCatch, hparse]
      rfl
    · obtain ⟨points, hpoints, hmodule⟩ := w.valid.said hx
      exact (hP a points hpoints).trans hmodule
  | @unread hnew o ho hoffer =>
    have hwords := rewords_asked (c := c) w.session a (.consulted .library a)
    have hle : w.Le (w.reword hwords .inl) := World.le_reword hwords id
    rcases ho with rfl | ⟨t, rfl⟩
    · refine ⟨.exhausted, _, ?_, hle, .lost trivial rfl⟩
      simp only [Computation.bind, Computation.tryCatch, hparse]
      rfl
    · refine ⟨.error (.accident t), _, ?_, hle, .lost ⟨t, rfl⟩ rfl⟩
      simp only [Computation.bind, Computation.tryCatch, hparse]
      rfl
  | @refused hnew points hoffer hmodule r =>
    let s : Session := (w.session.consultAll a).setLibrary { asked a w.session with report := r }
    obtain ⟨failed, hmark⟩ := markFailed_eq s a
    have hwords : Rewords c w.session (s.markFailed a) := by
      rw [hmark]
      exact ⟨rfl, rfl, hloads.gains, .inl⟩
    have hnone {P : Program} (hP : Compat c P (s.markFailed a)) (d : Nat) : ¬ Succeeds P d (.module a) := by
      rw [hmark] at hP
      exact not_succeeds_of_none ((hP a points (hloads.found _ hoffer)).trans hmodule) d
    have hfailed {b : String} (hb : b ∈ (s.markFailed a).failed) : b ∈ w.session.failed ∨
        ∀ {P}, Compat c P (s.markFailed a) → ∀ d, ¬ Succeeds P d (.module b) := by
      rcases Session.mem_markFailed.mp hb with hb | rfl
      · exact .inl hb
      · exact .inr hnone
    refine ⟨.error (.reported .parse), w.reword hwords hfailed, ?_,
      World.le_reword hwords fun hb => Session.mem_markFailed.mpr (.inl hb),
      .doomed (Outcome.error_ne_ok _) fun hP d r hr => ?_⟩
    · simp only [Computation.bind, Computation.tryCatch, hparse]
      rfl
    · exact absurd ⟨_, r, hr⟩ (hnone hP d)
  | @stored hnew points hoffer x hmodule =>
    let s : Session := ((w.session.consultAll a).setLibrary (asked a w.session)).store x
    have hloaded : Table.find? s.library.cache.loaded a = some (.text points) := hloads.found _ hoffer
    have hwords : Rewords c w.session s := by
      refine ⟨rfl, rfl, hloads.gains, fun {b y} hy => ?_⟩
      have hy : Table.find? (Table.insert w.session.modules x.address x) b = some y := hy
      rw [Table.find?_insert, address_of_moduleOf hmodule] at hy
      split at hy
      · rename_i hb
        obtain rfl := Option.some.inj hy
        subst hb
        exact .inr ⟨points, hloaded, hmodule⟩
      · exact .inl hy
    refine .after (u := w.reword hwords .inl) (World.le_reword hwords id) ?_ rfl rfl
      (evaluateModule_tracks hstrict hdelay (x := x) hvalue hnot fun hP => (hP a points hloaded).trans hmodule)
    simp only [Computation.bind, Computation.tryCatch, hparse]
    rfl

/-- The value of a module that is not under evaluation. -/
theorem evaluateWith_tracks (hstrict : EvalTracks c W.strict) (hdelay : W.delay = Eval.delay)
    (hnot : a ∉ w.session.evaluating) :
    Tracks w World.ValueRel (evaluateWith c W a) fun P d => answer P d (.module a) := by
  have hwords := rewords_note (c := c) w.session (.demanded a)
  have hle : w.Le (w.reword hwords .inl) := World.le_reword hwords id
  cases hvalue : Table.find? w.session.values a with
  | none => exact .after hle (evaluateWith_unknown hvalue) rfl rfl (readAndEvaluate_tracks hstrict hdelay hvalue hnot)
  | some v =>
    have hdone : w.Task (.module a) (.done v) := .module a (by simp only [Session.progress, hvalue])
    obtain ⟨b, hb, hcomes⟩ := w.valid.done hdone
    have hb : w.ValueRel v b := hb.carry (w.valid.carries fun o _ => Map.Near.trans fun _ _ => False.elim)
    exact ⟨.ok v, _, evaluateWith_known hvalue, hle, .ok (hle.valueRel hb) rfl fun hP => hcomes (hle.compat hP) w.place⟩

/-- An import is brought to its value. One that leads to a module under evaluation has none. -/
theorem loadWith_tracks (hstrict : EvalTracks c W.strict) (hdelay : W.delay = Eval.delay) :
    LoadTracks c (loadWith c W) := by
  intro w importer name target
  have hload : loadWith c W importer name target w.heap = (if w.session.evaluating.contains target then
      Computation.fail (.semantic (cycleError w.session.evaluating importer name target))
    else evaluateWith c W target : Action LazyModules.Value) w.heap := rfl
  refine .after (.refl w) hload rfl rfl ?_
  split
  · rename_i hmem
    have hmem : target ∈ w.session.evaluating := List.contains_iff_mem.mp hmem
    have hbusy : w.Task (.module target) .busy := .module target (progress_of_mem (w.valid.evaluating hmem) hmem)
    refine ⟨_, w, rfl, .refl w, .doomed nofun fun _ d r hr => ?_⟩
    exact ⟨.module target, hbusy, d, Nat.le_refl d, _, r, hr⟩
  · rename_i hmem
    exact evaluateWith_tracks hstrict hdelay fun h => hmem (List.contains_iff_mem.mpr h)

end Evaluating

/-- Imports are brought to their values, as deep as they nest. -/
theorem loader_tracks (nesting : Nat) : LoadTracks c (load c byNeed nesting) := by
  induction nesting with
  | zero => exact fun w importer name target => .exhaust
  | succ nesting ih => exact loadWith_tracks (eval_tracks ih c.depth) rfl

end LazyModules.Meaning
