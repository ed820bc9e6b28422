import LazyModules.CommandLine
import LazyModules.Proofs.Discipline.Session

/-!
# What a failure leaves behind

A computation of the engine may end in many ways, with cells that run and modules under evaluation all the
way up. Whichever way it is, the same cells are busy afterwards and the same modules are under evaluation,
nothing that was known is lost, and a diagnostic is added if and only if the computation ends with a problem
that counts as reported.

A module gets its value at the very end of its evaluation. That this never replaces a value hangs on the
modules under evaluation: an import that leads to one of them closes a cycle, so none of them gets a value
meanwhile (`Sustains.frozen`).

**Results.**
* `render_tells_once`: one diagnostic for each failure, and none without one.
* `failure_leaves_intact`: nothing is left half-done by forcing, evaluating, showing or rendering.
-/
namespace LazyModules

namespace Engine

/-- What every computation of the engine does to a session, given how it ends. -/
structure Keeps (s : Session) (o : Outcome Trouble Unit) (s' : Session) : Prop where
  evaluating : s'.evaluating = s.evaluating
  values : Table.Gains s.values s'.values
  modules : Table.Gains s.modules s'.modules
  library : Library.Grows o.told s.library s'.library

/-- What every computation does that is part of the evaluation of modules: these get no value meanwhile. -/
structure Sustains (s : Session) (o : Outcome Trouble Unit) (s' : Session) : Prop extends Keeps s o s' where
  frozen : ∀ a ∈ s.evaluating, Table.find? s'.values a = Table.find? s.values a

theorem told_ending {α : Type} (o : Outcome Trouble α) : o.ending.told = o.told := by cases o <;> rfl

namespace Keeps

variable {s s' s'' : Session} {o : Outcome Trouble Unit}

theorem refl (s : Session) (ho : o.told = 0) : Keeps s o s := by
  refine ⟨rfl, .refl _, .refl _, ?_⟩
  rw [ho]
  exact .refl _

theorem note (s : Session) (e : Event) : Keeps s (.ok ()) (s.note e) := ⟨rfl, .refl _, .refl _, .refl _⟩

theorem trans (h : Keeps s (.ok ()) s') (h' : Keeps s' o s'') : Keeps s o s'' := by
  refine ⟨h'.evaluating.trans h.evaluating, h.values.trans h'.values, h.modules.trans h'.modules, ?_⟩
  have hgrows := h.library.trans h'.library
  rwa [show (Outcome.ok () : Outcome Trouble Unit).told = 0 from rfl, Nat.zero_add] at hgrows

end Keeps

theorem Parses.keeps {c : Config} {address : String} {s s' : Session} {o : Outcome Trouble Module}
    (h : Parses c address s o s') : Keeps s o.ending s' := by
  refine ⟨h.evaluating_eq, ?_, h.modules_gain, ?_⟩
  · rw [h.values_eq]
    exact .refl _
  · rw [told_ending]
    exact h.grows

theorem Blames.keeps {e : SemanticError} {address : String} {s s' s'' : Session} {t : Trouble}
    (hs : Keeps s (.error (.semantic e)) s') (h : Blames e address s' t s'') : Keeps s (.error t) s'' := by
  refine ⟨h.evaluating_eq.trans hs.evaluating, ?_, ?_, ?_⟩
  · rw [h.values_eq]
    exact hs.values
  · rw [h.modules_eq]
    exact hs.modules
  · have hgrows : Library.Grows (0 + t.told) s.library s''.library := hs.library.trans h.grows
    rwa [Nat.zero_add] at hgrows

section Settling

variable {c : Config} {address : String} {m : Module} {s s' s₁ s₂ : Session} {l : Library}
  {o o' : Outcome Trouble Value}

/-- The evaluation of a module, from the demand to the end. The module may even be under evaluation already. -/
theorem Settles.keeps (hvalue : Table.find? s.values address = none)
    (hparses : Parses c address (s.note (.demanded address)) (.ok m) s') (hl : Library.Tells 0 s'.library l)
    (hbody : Sustains ((s'.setLibrary l).enter address) o.ending s₁) (h : Settles address s₁ o o' s₂) :
    Keeps s o'.ending s₂ := by
  have hread : Keeps s (.ok ()) s' := (Keeps.note s _).trans hparses.keeps
  refine ⟨?_, ?_, ?_, ?_⟩
  · rw [h.evaluating_eq, hbody.evaluating, ← hread.evaluating]
    exact List.dropLast_concat
  · have hnone : Table.find? s₁.values address = none := by
      rw [hbody.frozen address (List.mem_append_right _ (List.mem_singleton.mpr rfl))]
      change Table.find? s'.values address = none
      rw [hparses.values_eq]
      exact hvalue
    have hgains : Table.Gains s.values s₁.values := hread.values.trans hbody.values
    rcases h.values_cases with hsame | ⟨v, hset⟩
    · rw [hsame]
      exact hgains
    · rw [hset]
      exact hgains.trans (.insert hnone v)
  · rw [h.modules_eq]
    exact hread.modules.trans hbody.modules
  · rw [told_ending]
    refine h.grows ?_
    have hgrows : Library.Grows (0 + 0 + o.ending.told) s.library s₁.library :=
      (hread.library.trans hl.grows).trans hbody.library
    rwa [told_ending, Nat.zero_add] at hgrows

/-- A module that was not under evaluation does not disturb those that were. -/
theorem Settles.frozen (hnot : address ∉ s.evaluating)
    (hparses : Parses c address (s.note (.demanded address)) (.ok m) s')
    (hbody : Sustains ((s'.setLibrary l).enter address) o.ending s₁) (h : Settles address s₁ o o' s₂) :
    ∀ a ∈ s.evaluating, Table.find? s₂.values a = Table.find? s.values a := by
  intro a ha
  have hbefore : Table.find? s₁.values a = Table.find? s.values a := by
    have hmem : a ∈ ((s'.setLibrary l).enter address).evaluating := by
      refine List.mem_append_left _ ?_
      change a ∈ s'.evaluating
      rw [hparses.evaluating_eq]
      exact ha
    rw [hbody.frozen a hmem]
    change Table.find? s'.values a = _
    rw [hparses.values_eq]
    rfl
  rcases h.values_cases with hsame | ⟨v, hset⟩
  · rw [hsame, hbefore]
  · have hne : a ≠ address := fun heq => hnot (heq ▸ ha)
    rw [hset, Table.find?_insert, if_neg hne, hbefore]

end Settling

def sustained (c : Config) : Manner c where
  inv _ := True
  leads := Sustains
  ask s address := address ∉ s.evaluating
  refl {s o} _ ho := by
    refine ⟨.refl s ?_, fun _ _ => rfl⟩
    match o with
    | .ok _ | .exhausted | .error (.semantic _) | .error (.accident _) => rfl
    | .error (.reported phase) => exact absurd rfl (ho phase)
  trans h h' := by
    refine ⟨h.toKeeps.trans h'.toKeeps, fun a ha => ?_⟩
    rw [h'.frozen a (h.evaluating ▸ ha), h.frozen a ha]
  ask_of_not_mem _ := id
  known _ _ _ := ⟨trivial, .note _ _, fun _ _ => rfl⟩
  unread _ _ _ hparses _ _ := by
    have hkeeps := (Keeps.note _ _).trans hparses.keeps
    refine ⟨trivial, ⟨hkeeps.evaluating, hkeeps.values, hkeeps.modules, hkeeps.library⟩, fun a _ => ?_⟩
    exact congrArg (Table.find? · a) hparses.values_eq
  opens _ _ _ _ _ := trivial
  settles _ hask hvalue hparses hl _ hbody hsettles :=
    ⟨trivial, hsettles.keeps hvalue hparses hl hbody, hsettles.frozen hask hparses hbody⟩
  blames _ _ hleads hblames := by
    refine ⟨trivial, hblames.keeps hleads.toKeeps, fun a ha => ?_⟩
    rw [hblames.values_eq, hleads.frozen a ha]

/-- What was done is done, and nothing else: the same cells are busy, every result is as it was, the same
modules are under evaluation, and all that was known of modules and texts still is. -/
structure Intact (h h' : EngineState) : Prop where
  cells : CellsKept h.cells h'.cells
  evaluating : h'.rest.outer.evaluating = h.rest.outer.evaluating
  values : Table.Gains h.rest.outer.values h'.rest.outer.values
  modules : Table.Gains h.rest.outer.modules h'.rest.outer.modules
  loaded : Table.Gains h.rest.outer.library.cache.loaded h'.rest.outer.library.cache.loaded

theorem Keeps.intact {h h' : EngineState} {o : Outcome Trouble Unit} (hcells : CellsKept h.cells h'.cells)
    (hkeeps : Keeps h.rest.outer o h'.rest.outer) : Intact h h' :=
  ⟨hcells, hkeeps.evaluating, hkeeps.values, hkeeps.modules, hkeeps.library.loaded⟩

section Calls

variable (c : Config) (h : EngineState) (address : String)

theorem intact_of_keeps {α : Type} {V : EngineState → α → Prop} {f f' : Action α}
    (hf : (sustained c).conduct.Keeps h V f f') : Intact h (f h).2 := by
  obtain ⟨-, hends⟩ := hf trivial
  exact hends.leads.2.toKeeps.intact hends.leads.1

/-- The value of a module is asked for, from any state. -/
theorem evaluate_rule {Q : Outcome Trouble Value × EngineState → Prop}
    (hknown : ∀ v, Q (.ok v, Heap.setOuter h (h.rest.outer.note (.demanded address))))
    (hunread : ∀ o s failed, Parses c address (h.rest.outer.note (.demanded address)) o s →
      ∀ o', o'.ending = o.ending → Q (o', Heap.setOuter h (s.setFailed failed)))
    (hsettles : ∀ m s l (r : Outcome Trouble Value × EngineState) o s', Opening c h address m s l →
      (sustained c).conduct.leads (opened h s l address) r.1.ending r.2 →
      Settles address r.2.rest.outer r.1 o s' → Q (o, Heap.setOuter r.2 s')) : Q (evaluate c address h) := by
  have hW := Conduct.walker_respects (K := (sustained c).conduct) Conduct.byNeed_walks
  refine And.right (a := evaluate c address h = evaluate c address h)
    (evaluateWith_rule (sustained c).conduct.toDiscipline ?_ ?_ ?_ ?_)
  · exact fun v _ => hknown v
  · exact fun _ o s failed hparses _ => hunread o s failed hparses
  · intro m s l hopening
    exact ⟨trivial, Conduct.evaluateBody_keeps hW
      ((Manner.moduleScope_keeps hW address m).imp fun _ _ _ _ _ _ => trivial)⟩
  · exact fun m s l r o s' hopening hends => hsettles m s l r o s' hopening hends.leads

theorem evaluate_keeps : CellsKept h.cells (evaluate c address h).2.cells ∧
    Keeps h.rest.outer (evaluate c address h).1.ending (evaluate c address h).2.rest.outer := by
  refine evaluate_rule c h address
    (Q := fun r => CellsKept h.cells r.2.cells ∧ Keeps h.rest.outer r.1.ending r.2.rest.outer) ?_ ?_ ?_
  · exact fun v => ⟨.refl _, .note _ _⟩
  · intro o s failed hparses o' ho'
    have hkeeps := (Keeps.note _ _).trans hparses.keeps
    rw [ho']
    exact ⟨.refl _, hkeeps.evaluating, hkeeps.values, hkeeps.modules, hkeeps.library⟩
  · intro m s l r o s' hopening hleads hsettles
    exact ⟨hleads.1, hsettles.keeps hopening.unvalued hopening.parses hopening.library hleads.2⟩

theorem render_keeps : CellsKept h.cells (render c address h).2.cells ∧
    Keeps h.rest.outer (render c address h).1.ending (render c address h).2.rest.outer := by
  obtain ⟨hcells, hkeeps⟩ := evaluate_keeps c h address
  simp only [render, renderBy, bind, Computation.bind]
  rcases hr : evaluateBy c byNeed address h with ⟨o, h'⟩
  rw [evaluate, hr] at hcells hkeeps
  cases o with
  | error e | exhausted => exact ⟨hcells, hkeeps⟩
  | ok v =>
    obtain ⟨-, hends⟩ := Conduct.show_keeps (K := (sustained c).conduct) Conduct.byNeed_walks address
      (Manner.value v) (h := h') trivial
    exact ⟨hcells.trans hends.leads.1, hkeeps.trans hends.leads.2.toKeeps⟩

/-- One diagnostic more if a problem counts as reported, and otherwise none. -/
def TellsOnce {α : Type} (o : Outcome Trouble α) (kinds kinds' : List DiagnosticKind) : Prop :=
  match o with
  | .error (.reported _) => ∃ kind, kinds' = kinds ++ [kind]
  | _ => kinds' = kinds

theorem Keeps.tellsOnce {α : Type} {o : Outcome Trouble α} {s s' : Session} (hkeeps : Keeps s o.ending s') :
    TellsOnce o s.library.report.kinds s'.library.report.kinds := by
  obtain ⟨more, hmore, hlength⟩ := hkeeps.library.kinds
  match o with
  | .error (.reported phase) =>
    obtain ⟨kind, rfl⟩ := List.length_eq_one_iff.mp hlength
    exact ⟨kind, hmore⟩
  | .ok _ | .exhausted | .error (.semantic _) | .error (.accident _) =>
    obtain rfl := List.eq_nil_of_length_eq_zero hlength
    exact hmore.trans (List.append_nil _)

/-- A run of the command line finds the report sick if its program ended with a reported problem. -/
theorem assertion_execute (program : String) (library : Library) :
    CommandLine.assertion (CommandLine.execute program library).1
      (CommandLine.execute program library).2.2 = true := by
  obtain ⟨-, hkeeps⟩ := render_keeps .standard (EngineState.start library) program
  have htells := hkeeps.tellsOnce
  have hsaved := (Library.Discreet.save
    (render .standard program (EngineState.start library)).2.rest.outer.library).2
  simp only [CommandLine.execute]
  match hr : render .standard program (EngineState.start library) with
  | (.error (.reported phase), m) =>
    rw [hr] at htells hsaved
    obtain ⟨kind, hkind⟩ := htells
    rw [hkind] at hsaved
    simp only [CommandLine.assertion, Report.sick, Report.ok, hsaved]
    simp
  | (.ok _, m) | (.exhausted, m) | (.error (.semantic _), m) | (.error (.accident _), m) => rfl

/-- One diagnostic for each failure: a program that is rendered adds exactly one to the report if it ends
with a problem that counts as reported, and none otherwise. So a run of the command line, which takes for
granted that such a problem is in the report, is never let down. -/
theorem render_tells_once :
    TellsOnce (render c address h).1 h.rest.outer.library.report.kinds
      (render c address h).2.rest.outer.library.report.kinds ∧
    ∀ program library, CommandLine.assertion (CommandLine.execute program library).1
      (CommandLine.execute program library).2.2 = true :=
  ⟨(render_keeps c h address).2.tellsOnce, assertion_execute⟩

/-- Nothing is left half-done. Whatever is forced, evaluated, taken all the way down, shown or rendered, from
whatever state and however it ends, leaves that state intact. A module that cannot be read is not kept, and
neither is a text that cannot be had. -/
theorem failure_leaves_intact :
    (∀ nesting depth x, Intact h (Eval.force (load c byNeed nesting) depth x h).2) ∧
    (∀ nesting depth e s, Intact h (Eval.eval (load c byNeed nesting) depth e s h).2) ∧
    (∀ nesting depth bound v, Intact h (Eval.deepWith (Eval.force (load c byNeed nesting) depth) bound v h).2) ∧
    (∀ nesting depth bound v,
      Intact h (Eval.displayWith (Eval.force (load c byNeed nesting) depth) bound v h).2) ∧
    (∀ address, Intact h (evaluate c address h).2 ∧ Intact h (render c address h).2) ∧
    (∀ address, (∃ m, (parse c address h).1 = .ok m) ∨
      (parse c address h).2.rest.outer.modules = h.rest.outer.modules) ∧
    ∀ address library, (∃ d, (Library.getOrLoad address library).1 = .ok d) ∨
      (Library.getOrLoad address library).2.cache.loaded = library.cache.loaded := by
  have hload (nesting : Nat) : (sustained c).conduct.Honours (load c byNeed nesting) (load c byNeed nesting) :=
    Conduct.load_honours Conduct.byNeed_walks nesting
  have hev (nesting depth : Nat) : (sustained c).conduct.Trusts (Eval.eval (load c byNeed nesting) depth)
      (Eval.eval (load c byNeed nesting) depth) :=
    Eval.Discipline.eval_keeps (hload nesting) depth
  have hforce (nesting depth : Nat) {h : EngineState} {x : Slot} (hx : (sustained c).conduct.Slot h x) :
      (sustained c).conduct.Keeps h (sustained c).conduct.Value (Eval.force (load c byNeed nesting) depth x)
        (Eval.force (load c byNeed nesting) depth x) :=
    Eval.Discipline.forceWith_keeps (hload nesting) (hev nesting depth) hx
  refine ⟨?_, ?_, ?_, ?_, ?_, ?_, ?_⟩
  · exact fun nesting depth x => intact_of_keeps c h (hforce nesting depth (Manner.slot x))
  · exact fun nesting depth e s => intact_of_keeps c h (hev nesting depth trivial)
  · exact fun nesting depth bound v =>
      intact_of_keeps c h (Eval.Discipline.deepWith_keeps (hforce nesting depth) bound (Manner.value v))
  · exact fun nesting depth bound v =>
      intact_of_keeps c h (Eval.Discipline.displayWith_keeps (hforce nesting depth) bound (Manner.value v))
  · intro address
    obtain ⟨hcells, hkeeps⟩ := evaluate_keeps c h address
    obtain ⟨hcells', hkeeps'⟩ := render_keeps c h address
    exact ⟨hkeeps.intact hcells, hkeeps'.intact hcells'⟩
  · intro address
    obtain ⟨s, hs, hparses⟩ := parse_parses c address h
    rw [hs]
    match (parse c address h).1, hparses with
    | .ok m, _ => exact .inl ⟨m, rfl⟩
    | .error e, hparses => exact .inr (hparses.modules_eq nofun)
    | .exhausted, hparses => exact .inr (hparses.modules_eq nofun)
  · intro address library
    have hloads := Library.getOrLoad_loads address library
    match hr : (Library.getOrLoad address library).1 with
    | .ok d => exact .inl ⟨d, rfl⟩
    | .error e | .exhausted => exact .inr (hloads.fails fun d hd => by simp [hr] at hd)

end Calls

end Engine

end LazyModules
