import LazyModules.Proofs.Meaning.Tracks

/-!
# Demands

A demand brings a task to its value. If the task is done then its value is at hand, if it is busy then there is none,
and if it waits then it begins and ends.

**Results.** `exists_after_task`: a task that waited, from its beginning to its end. `forceWith_tracks`,
`lookWith_tracks`: the value of a slot.
-/
namespace LazyModules.Meaning

open Engine

variable {c : Config}

/-! ## Tasks that wait -/

/-- What becomes of a task and of the outcome of its evaluation. -/
inductive Concludes (m : Map) (h : EngineState) (q : Question) (h' : EngineState) :
    Outcome Trouble LazyModules.Value → Outcome Trouble LazyModules.Value → Prop where
  | value {v : LazyModules.Value} (hend : Turns m q (.done v) h h')
      (hsame : h'.rest.outer.failed = h.rest.outer.failed) :
      Concludes m h q h' (.ok v) (.ok v)
  /-- it waits again -/
  | nothing {o : Outcome Trouble LazyModules.Value} (ho : ∀ v, o ≠ .ok v) (hend : Turns m q .waiting h h')
      (hsame : h'.rest.outer.failed = h.rest.outer.failed) : Concludes m h q h' o o
  /-- it counts as failed -/
  | failed {o o' : Outcome Trouble LazyModules.Value} (ho : ∀ v, o ≠ .ok v) (hlost : ¬ o.Lost) (ho' : ∀ v, o' ≠ .ok v)
      (hend : Turns m q .waiting h h') (hstill : ∀ {a}, a ∈ h.rest.outer.failed → a ∈ h'.rest.outer.failed)
      (hfailed : ∀ {a}, a ∈ h'.rest.outer.failed → a ∈ h.rest.outer.failed ∨ q = .module a) :
      Concludes m h q h' o o'

/-- An evaluation that takes place in a task of its own is the same wherever the task is demanded. -/
theorem comes_of_arrives {P : Program} {q : Question} {y : Nat → Course Value}
    (hanswer : ∀ d, answer P (d + 1) q = within q.origin (y d)) {b : Value} {p : Place}
    (h : Arrives y ⟨q.origin, 0⟩ (b, p)) : Comes P q b := by
  intro p'
  refine ⟨?_, ?_⟩
  · obtain ⟨n, hn⟩ := h.late
    refine ⟨n + 1, fun d hd => ?_⟩
    obtain ⟨d, rfl⟩ := Nat.exists_eq_add_of_le' (Nat.le_trans (Nat.le_add_left 1 n) hd)
    simp only [hanswer, within, hn d (by omega), Option.map_some]
  · intro d r hr
    cases d with
    | zero => cases hr
    | succ d =>
      rw [hanswer] at hr
      obtain ⟨r', hr', rfl⟩ := Option.map_eq_some_iff.mp hr
      rw [h.only hr']

/-- A task is doomed if its evaluation is. -/
theorem doomed_of_family {u : World c} {q : Question} {y : Family Value}
    (hanswer : ∀ {P}, Compat c P u.session → ∀ d, answer P (d + 1) q = within q.origin (y P d))
    (h : ∀ {P}, Compat c P u.session → ∀ {d r}, y P d ⟨q.origin, 0⟩ = some r →
      ∃ q', u.Task q' .busy ∧ ∃ d' ≤ d, Succeeds P d' q') : u.map.Doomed c u.heap q := by
  intro P hP d hd
  obtain ⟨p, r, hr⟩ := hd
  cases d with
  | zero => cases hr
  | succ d =>
    rw [hanswer hP] at hr
    obtain ⟨r', hr', -⟩ := Option.map_eq_some_iff.mp hr
    obtain ⟨q', hq', d', hd', hsucceeds⟩ := h hP hr'
    exact ⟨q', hq', d', Nat.lt_succ_of_le hd', hsucceeds⟩

/-- A task that waited, from its beginning to its end. -/
theorem exists_after_task {w u : World c} {q : Question} {h h' : EngineState} (hq : w.Task q .waiting)
    (ht : Turns w.map q .busy w.heap h) (hfailed : h.rest.outer.failed = w.session.failed) (hnear : w.Near q.origin)
    {y : Family Value} {o o' : Outcome Trouble LazyModules.Value} (hle : (w.begin hq ht hfailed).Le u)
    (hends : Ends (w.begin hq ht hfailed) World.ValueRel y o u)
    (hanswer : ∀ {P}, Compat c P u.session → ∀ d, answer P (d + 1) q = within q.origin (y P d))
    (hconcludes : Concludes u.map u.heap q h' o o')
    (hevaluating : h'.rest.outer.evaluating = w.session.evaluating) :
    ∃ w' : World c, w'.heap = h' ∧ w.Le w' ∧ Ends w World.ValueRel (fun P d => answer P d q) o' w' := by
  have hplace := World.place_begin hq ht hfailed
  have hbegin : (w.begin hq ht hfailed).session.failed = w.session.failed := hfailed
  have hdoomed {w' : World c} (hheap : w'.heap = h') (hle' : w.Le w') (hend : Turns u.map q .waiting u.heap h')
      (hself : u.map.Doomed c u.heap q) (ho' : ∀ v, o' ≠ .ok v) :
      Ends w World.ValueRel (fun P d => answer P d q) o' w' := by
    refine .doomed ho' ?_
    intro P hP d r hr
    have hP : Compat c P u.session := hend.compat (hheap ▸ hP)
    obtain ⟨q', hq', d', hd', hsucceeds⟩ := World.doomed_outside hq ht hfailed hle hself hself hP ⟨_, r, hr⟩
    exact ⟨q', hle'.busy.mpr hq', d', Nat.le_of_lt hd', hsucceeds⟩
  have hstill {a : String} (ha : a ∈ w.session.failed) : a ∈ u.session.failed := hle.failed (hbegin ▸ ha)
  cases hconcludes with
  | value hend hsame =>
    cases hends with
    | lost ho => exact ho.elim
    | doomed ho => exact absurd rfl (ho _)
    | @ok _ b _ hb hsame' harrives =>
      have hcomes {P : Program} (hP : Compat c P u.session) : Comes P q b :=
        comes_of_arrives (hanswer hP) (hplace ▸ harrives hP)
      have hsame := hsame.trans (hsame'.trans hbegin)
      obtain ⟨w', rfl, hle', hplace', hb'⟩ :=
        World.exists_finished hq ht hfailed hle hend hevaluating hsame hnear hb hcomes
      refine ⟨w', rfl, hle', .ok hb' hsame fun hP => ?_⟩
      rw [hplace']
      exact hcomes (hend.compat hP) w.place
  | nothing ho hend hsame =>
    cases hends with
    | ok => exact absurd rfl (ho _)
    | lost ho hsame' =>
      have hsame := hsame.trans (hsame'.trans hbegin)
      obtain ⟨w', rfl, hle', -⟩ :=
        World.exists_aborted hq ht hfailed hle hend hevaluating (fun ha => hsame ▸ ha) (.inl hsame)
      exact ⟨w', rfl, hle', .lost ho hsame⟩
    | doomed _ h =>
      have hself : u.map.Doomed c u.heap q := doomed_of_family hanswer (hplace ▸ h)
      obtain ⟨w', rfl, hle', -⟩ := World.exists_aborted hq ht hfailed hle hend hevaluating
        (fun ha => hsame ▸ hstill ha) (.inr ⟨hself, fun ha => u.failed (hsame ▸ ha)⟩)
      exact ⟨w', rfl, hle', hdoomed rfl hle' hend hself ho⟩
  | failed ho hlost ho' hend hgains hnew =>
    cases hends with
    | ok => exact absurd rfl (ho _)
    | lost ho => exact absurd ho hlost
    | doomed _ h =>
      have hself : u.map.Doomed c u.heap q := doomed_of_family hanswer (hplace ▸ h)
      have hall {a : String} (ha : a ∈ h'.rest.outer.failed) : u.map.Doomed c u.heap (.module a) := by
        rcases hnew ha with ha | rfl
        · exact u.failed ha
        · exact hself
      obtain ⟨w', rfl, hle', -⟩ := World.exists_aborted hq ht hfailed hle hend hevaluating
        (fun ha => hgains (hstill ha)) (.inr ⟨hself, hall⟩)
      exact ⟨w', rfl, hle', hdoomed rfl hle' hend hself ho'⟩

/-! ## Cells -/

section Cells

variable {m : Map} {h : EngineState} {current : Origin} {count : Origin → Nat}

/-- A cell in another state. -/
theorem turns_setCell (hv : Valid c m h current count) {i : Nat} {x : Slot} (hx : m.cell i x)
    {y : Cell Job LazyModules.Value} (hy : h.cells[i]? = some y) (y' : Cell Job LazyModules.Value)
    (hjob : y'.job = y.job) : Turns m (.slot x) y'.progress h (h.setCell i y') := by
  have hself : (h.setCell i y').cells[i]? = some y' :=
    Heap.getElem?_setCell_self (Heap.job?_eq_some_iff.mpr ⟨y, hy, rfl⟩) y'
  have hother {k : Nat} (hk : i ≠ k) : (h.setCell i y').cells[k]? = h.cells[k]? := Heap.getElem?_setCell_ne h hk y'
  refine
    { frames := rfl, nextId := rfl, jobs := ?_, loaded := .refl _, modules := rfl, evaluating := hv.evaluating
      now := .cell hx hself rfl, task := ?_, others := ?_ }
  · intro k z hz
    by_cases hk : i = k
    · subst hk
      obtain rfl := Option.some.inj (hy.symm.trans hz)
      exact ⟨y', hself, hjob⟩
    · exact ⟨z, (hother hk).trans hz, rfl⟩
  · intro q' p' hq'
    cases hq' with
    | @cell k x' z hx' hz _ hp =>
      by_cases hk : i = k
      · subst hk
        obtain rfl := (hv.cell_unique hx hx' (.inl rfl)).2
        obtain rfl := Option.some.inj (hself.symm.trans hz)
        exact .inl ⟨rfl, hp.symm⟩
      · refine .inr ⟨fun heq => hk ?_, .cell hx' ((hother hk).symm.trans hz) hp⟩
        obtain rfl := Question.slot.inj heq
        exact (hv.cell_unique hx hx' (.inr rfl)).1
    | module a hp => exact .inr ⟨nofun, .module a hp⟩
  · intro q' p' hne hq'
    cases hq' with
    | @cell k x' z hx' hz _ hp =>
      have hk : i ≠ k := by
        rintro rfl
        exact hne (congrArg Question.slot (hv.cell_unique hx hx' (.inl rfl)).2.symm)
      exact .cell hx' ((hother hk).trans hz) hp
    | module a hp => exact .module a hp

end Cells

/-- How an import is brought to its value. -/
def LoadTracks (c : Config) (load : Eval.Loader Session) : Prop :=
  ∀ (w : World c) (importer name target : String),
    Tracks w World.ValueRel (load importer name target) fun P d => answer P d (.module target)

/-- How an expression is evaluated. -/
def EvalTracks (c : Config) (ev : Eval.Evaluator Session) : Prop :=
  ∀ (w : World c) (e : Expr) (s : LazyModules.Scope) (t : Scope), w.ScopeRel s t →
    Tracks w World.ValueRel (ev e s) fun P d => answer P d (.expr e t)

section Forcing

variable {w : World c} {load : Eval.Loader Session} {ev : Eval.Evaluator Session}

/-- What a cell is for is evaluated in a task of its own. -/
theorem runJob_tracks (hload : LoadTracks c load) (hev : EvalTracks c ev) {x : Slot} {job : Job}
    (hcurrent : w.current = x.origin) (hjob : JobRel w.map job x) (hnear : x.All (w.map.Near w.heap x.origin)) :
    ∃ y : Family Value, Tracks w World.ValueRel (Eval.runJob load ev job) y ∧
      ∀ P d, answer P (d + 1) (.slot x) = within x.origin (y P d) := by
  cases hjob with
  | @expr s t hs e o =>
    refine ⟨_, hev w e s t ⟨hs, hnear.2.imp fun z hz => ?_⟩, fun P d => rfl⟩
    exact fun y hy hzy => .inr (hcurrent ▸ hz y hy hzy)
  | load importer name target o => exact ⟨_, hload w importer name target, fun P d => rfl⟩

/-- A cell is brought to its value. -/
theorem demand_tracks (hload : LoadTracks c load) (hev : EvalTracks c ev) {i : Nat} {x : Slot} (hi : w.map.cell i x)
    (hx : x.All w.Near) (circular : Trouble) :
    Tracks w World.ValueRel (Machine.demand circular (Eval.runJob load ev) i) fun P d => answer P d (.slot x) := by
  obtain ⟨y, hy, hjob⟩ := w.valid.cell_job hi
  have hnear : w.Near x.origin := hjob.origin hx
  cases y with
  | done job v =>
    obtain ⟨b, hb, hcomes⟩ := w.valid.done (.cell hi hy rfl)
    have hcarried := hb.carry (w.valid.carries fun o _ => hnear.trans)
    refine ⟨.ok v, w, ?_, .refl w, .ok hcarried rfl fun hP => hcomes hP w.place⟩
    simp only [Machine.demand, hy]
  | busy job =>
    refine ⟨.error circular, w, ?_, .refl w, .doomed (Outcome.error_ne_ok circular) fun _ d r hr => ?_⟩
    · simp only [Machine.demand, hy]
    · exact ⟨.slot x, .cell hi hy rfl, d, Nat.le_refl d, _, r, hr⟩
  | waiting job =>
    have hq : w.Task (.slot x) .waiting := .cell hi hy rfl
    have ht : Turns w.map (.slot x) .busy w.heap (w.heap.setCell i (.busy job)) :=
      turns_setCell w.valid hi hy (.busy job) rfl
    have hnear' := (w.valid.begin hq ht).cell_near hi
    obtain ⟨y, hy', hanswer⟩ := runJob_tracks (w := w.begin hq ht rfl) hload hev rfl hjob hnear'
    obtain ⟨o, u, hrun, hle, hends⟩ := hy'
    obtain ⟨z, hz, hsame⟩ := hle.jobs (Heap.getElem?_setCell_self (Heap.job?_eq_some_iff.mpr ⟨_, hy, rfl⟩) (.busy job))
    have hconcludes : Concludes u.map u.heap (.slot x) (u.heap.setCell i (.after job o)) o o := by
      have hturns := turns_setCell u.valid (hle.map.cell hi) hz (.after job o) ((Cell.job_after job o).trans hsame.symm)
      cases o with
      | ok v => exact .value hturns rfl
      | error t => exact .nothing (Outcome.error_ne_ok t) hturns rfl
      | exhausted => exact .nothing Outcome.exhausted_ne_ok hturns rfl
    obtain ⟨w', hheap, hle', hends'⟩ :=
      exists_after_task hq ht rfl hnear hle hends (fun _ => hanswer _) hconcludes hle.evaluating
    refine ⟨o, w', ?_, hle', hends'⟩
    rw [demand_waiting hy hrun, hheap]

theorem valueRel_constant (k : Constant) : w.ValueRel k.value (.ofConstant k) := by
  cases k with
  | nil => exact .nil
  | flag b => exact .flag b
  | int n => exact .number (.int n)
  | float x => exact .number (.float x)
  | text s => exact .text s

/-- A slot is brought to its value. -/
theorem forceWith_tracks (hload : LoadTracks c load) (hev : EvalTracks c ev) {x : LazyModules.Slot} {y : Slot}
    (hxy : w.SlotRel x y) :
    Tracks w World.ValueRel (Eval.forceWith load ev x) fun P d => answer P d (.slot y) := by
  cases hxy with
  | constant k => exact .later (.pure (valueRel_constant k)) (fun _ => rfl) fun _ _ => rfl
  | closure hid hscope ho hs => exact .later (.pure (.function hid hscope ho hs)) (fun _ => rfl) fun _ _ => rfl
  | cell hi hx => exact demand_tracks hload hev hi hx _

/-- A slot that a name stands for is brought to its value. -/
theorem lookWith_tracks (hload : LoadTracks c load) (hev : EvalTracks c ev) (s : LazyModules.Scope) (name : String)
    {x : LazyModules.Slot} {y : Slot} (hxy : w.SlotRel x y) :
    Tracks w World.ValueRel (Eval.lookWith (Eval.forceWith load ev) s name x) fun P d => answer P d (.slot y) := by
  have hforce := forceWith_tracks hload hev hxy
  cases hxy with
  | constant k => exact hforce
  | closure hid hscope ho hs => exact hforce
  | @cell i _ hi hx =>
    obtain ⟨z, hz, -⟩ := w.valid.cell_job hi
    refine .prepend (.refl w) (a := z.isBusy) (by simp [Machine.isBusy, hz]) rfl rfl ?_
    cases z with
    | waiting job => exact hforce
    | done job v => exact hforce
    | busy job =>
      refine ⟨_, w, rfl, .refl w, .doomed (fun _ => nofun) fun _ d r hr => ?_⟩
      exact ⟨.slot y, .cell hi hz rfl, d, Nat.le_refl d, _, r, hr⟩

end Forcing

end LazyModules.Meaning
