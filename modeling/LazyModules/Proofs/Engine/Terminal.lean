import LazyModules.Proofs.Engine.Journal
import LazyModules.Proofs.Meaning.Runs

/-!
# Modules that are done

A module is done if it has a value or counts as failed. A failed module is evaluated anew whenever it is asked for,
perhaps as part of another module, in another world, or while other modules are under evaluation. Its text is the same
each time, and so is the meaning of its text: a value found for it later would have been found the first time. So a
module that is done never changes its state.

What fails while the value of a module is shown is reported, but it is no failure of the module.

**Results.** `terminal_states_final`: no module has a value and counts as failed, and what is done stays as it is.
`rendered_failure_state`: the state of a module that could not be rendered.
-/
namespace LazyModules

namespace Session

variable {s : Session} {a : String}

theorem stateOf_eq_failed : s.stateOf a = .failed ↔ a ∈ s.failed := by
  unfold stateOf
  split_ifs <;> simp_all

theorem stateOf_eq_evaluated : s.stateOf a = .evaluated ↔ a ∉ s.failed ∧ (Table.find? s.values a).isSome := by
  unfold stateOf Table.contains
  split_ifs <;> simp_all

end Session

namespace Engine

open Meaning

/-! ## Runs -/

/-- Shows the value of a module. What fails is reported like a failure of the module. -/
def showing (c : Config) (a : String) (v : Value) : Action String :=
  (Eval.displayWith (walker c byNeed).force c.depth v).tryCatch (handleShown a)

/-- The value of a module is shown if there is one. -/
theorem render_cases (c : Config) (a : String) (h : EngineState) :
    (∃ v h₁, evaluate c a h = (.ok v, h₁) ∧ render c a h = showing c a v h₁) ∨
    (∃ t h₁, evaluate c a h = (.error t, h₁) ∧ render c a h = (.error t, h₁)) ∨
    ∃ h₁, evaluate c a h = (.exhausted, h₁) ∧ render c a h = (.exhausted, h₁) := by
  have hrender : render c a h = (evaluate c a).bind (showing c a) h := rfl
  rcases hr : evaluate c a h with ⟨o, h₁⟩
  simp only [Computation.bind, hr] at hrender
  cases o with
  | ok v => exact .inl ⟨v, h₁, rfl, hrender⟩
  | error t => exact .inr (.inl ⟨t, h₁, rfl, hrender⟩)
  | exhausted => exact .inr (.inr ⟨h₁, rfl, hrender⟩)

theorem showing_of_display {c : Config} {a text : String} {v : Value} {h : EngineState}
    (hdisplay : (Eval.displayWith (walker c byNeed).force c.depth v h).1 = .ok text) :
    (showing c a v h).1 = .ok text := by
  simp only [showing, Computation.tryCatch]
  rcases hr : Eval.displayWith (walker c byNeed).force c.depth v h with ⟨o, h₁⟩
  rw [hr] at hdisplay
  obtain rfl : o = .ok text := hdisplay
  rfl

/-- Showing a value takes no value from a module. -/
theorem showing_gains (c : Config) (a : String) (v : Value) (h : EngineState) :
    Table.Gains h.rest.outer.values (showing c a v h).2.rest.outer.values := by
  obtain ⟨-, hends⟩ := Conduct.show_keeps (K := (sustained c).conduct) Conduct.byNeed_walks a (Manner.value v)
    (h := h) trivial
  exact hends.leads.2.values

theorem recorded_serve (c : Config) (library : Library) (requests : List Request) :
    Recorded (serve c byNeed requests (.start library)).2.rest.outer := by
  obtain ⟨-, ⟨hrecorded, -⟩, -⟩ := Conduct.serve_keeps (recorded_lasts c) Conduct.byNeed_walks requests
    (h := .start library) ⟨recorded_start library, rfl⟩
  exact hrecorded

theorem serve_append (c : Config) (walk : Walking) (qs more : List Request) (h : EngineState) :
    (serve c walk (qs ++ more) h).2 = (serve c walk more (serve c walk qs h).2).2 := by
  induction qs generalizing h with
  | nil => rfl
  | cons q qs ih => exact ih _

/-- Between requests, a module that has a value is evaluated: it does not count as failed. -/
theorem stateOf_of_value {c : Config} {h : EngineState} (hrests : Rests c h) {a : String} {v : Value}
    (hv : Table.find? h.rest.outer.values a = some v) : h.rest.outer.stateOf a = .evaluated := by
  refine Session.stateOf_eq_evaluated.mpr ⟨fun ha => ?_, by simp [hv]⟩
  simp [hrests.values_of_failed ha] at hv

/-- What is done stays as it is. In every run, whatever the world becomes in between, no module both has a value and
counts as failed. So a module that is evaluated is so ever after. A module that has failed is failed ever after: it
never gets a value, from wherever it is entered, and it can neither be evaluated nor be rendered itself. -/
theorem terminal_states_final (c : Config) (library : Library) (requests more : List Request) (a : String) :
    let h := (serve c byNeed requests (.start library)).2
    let h' := (serve c byNeed more h).2
    ¬ (a ∈ h.rest.outer.failed ∧ (Table.find? h.rest.outer.values a).isSome) ∧
    (h.rest.outer.stateOf a = .evaluated → h'.rest.outer.stateOf a = .evaluated) ∧
    (h.rest.outer.stateOf a = .failed →
      h'.rest.outer.stateOf a = .failed ∧ .valued a ∉ h'.rest.outer.journal ∧
      (∀ v, (evaluate c a h').1 ≠ .ok v) ∧ ∀ text, (render c a h').1 ≠ .ok text) := by
  intro h h'
  have hrests : Rests c h := ((rests_start c library).serve requests).rests
  obtain ⟨hrests', hfailed⟩ : Resumes c h h' := hrests.serve more
  have hrecorded : Recorded h'.rest.outer := by
    have hrun := recorded_serve c library (requests ++ more)
    rwa [serve_append] at hrun
  refine ⟨?_, fun hstate => ?_, fun hstate => ?_⟩
  · rintro ⟨ha, hsome⟩
    simp [hrests.values_of_failed ha] at hsome
  · obtain ⟨v, hv⟩ := Option.isSome_iff_exists.mp (Session.stateOf_eq_evaluated.mp hstate).2
    exact stateOf_of_value hrests' (serve_gains c more h a v hv)
  · have ha : a ∈ h'.rest.outer.failed := hfailed (Session.stateOf_eq_failed.mp hstate)
    have hnone := hrests'.values_of_failed ha
    have hnever := hrests'.evaluate_ne_ok ha
    refine ⟨Session.stateOf_eq_failed.mpr ha, ?_, hnever, fun text htext => ?_⟩
    · simp [hrecorded.values, hnone]
    · rcases render_cases c a h' with ⟨v, h₁, heq, -⟩ | ⟨t, h₁, -, heq⟩ | ⟨h₁, -, heq⟩
      · exact hnever v (congrArg Prod.fst heq)
      · cases htext.symm.trans (congrArg Prod.fst heq)
      · cases htext.symm.trans (congrArg Prod.fst heq)

/-- A world with files in the current folder and nothing else. -/
def filing (texts : List (String × String)) : World :=
  ⟨⟨texts.map fun t => ([t.1], .text t.2), [[]], [], false⟩, [], []⟩

/-- A module fails as an import of another one. After its file has been repaired it is asked for as part of that other
one again, and then itself. -/
theorem terminal_states_final_repaired :
    let c : Config := ⟨Reading.ofText, 8⟩
    let library : Library := ⟨⟨none, [], []⟩, .empty false, filing [("m", "l \"l\" l"), ("l", "missing")]⟩
    let repaired := filing [("m", "l \"l\" l"), ("l", "1")]
    let h := (serve c byNeed [.evaluate "m"] (.start library)).2
    let h' := (serve c byNeed [.change repaired, .evaluate "m"] h).2
    h.rest.outer.stateOf "l" = .failed ∧ h'.rest.outer.stateOf "l" = .failed ∧ .valued "l" ∉ h'.rest.outer.journal ∧
      (∀ v, (evaluate c "l" h').1 ≠ .ok v) ∧ ∀ text, (render c "l" h').1 ≠ .ok text := by
  dsimp only
  refine ⟨?failed, (terminal_states_final _ _ _ _ _).2.2 ?failed⟩
  decide +kernel

/-! ## Failures that are reported -/

/-- A module that could not be rendered, for a reason that is reported. It counts as failed if its value could not be
had, be it that it was not read, that an import could not be resolved or that its body failed. What fails when its
value is shown leaves it evaluated. -/
theorem rendered_failure_state (c : Config) (library : Library) (requests : List Request) (a : String) (phase : Phase)
    (hrender : (render c a (serve c byNeed requests (.start library)).2).1 = .error (.reported phase)) :
    let h := (serve c byNeed requests (.start library)).2
    let h' := (render c a h).2
    ((evaluate c a h).1 = .error (.reported phase) ∧ h'.rest.outer.stateOf a = .failed) ∨
    ∃ v, (evaluate c a h).1 = .ok v ∧
      (∀ text, (Eval.displayWith (walker c byNeed).force c.depth v (evaluate c a h).2).1 ≠ .ok text) ∧
      Table.find? h'.rest.outer.values a = some v ∧ h'.rest.outer.stateOf a = .evaluated := by
  intro h h'
  have hrests : Rests c h := ((rests_start c library).serve requests).rests
  have hrests' : Rests c h' := (hrests.answer (.render a)).rests
  have hmarks : Marks a (evaluate c a h).2.rest.outer (evaluate c a h).1 := evaluateWith_marks c _ a h
  have hreported : (render c a h).1 = .error (.reported phase) := hrender
  rcases render_cases c a h with ⟨v, h₁, heq, heq'⟩ | ⟨t, h₁, heq, heq'⟩ | ⟨h₁, heq, heq'⟩
  · rw [heq] at hmarks
    have hv : Table.find? h'.rest.outer.values a = some v := by
      simp only [h', heq']
      exact showing_gains c a v h₁ a v hmarks
    rw [heq]
    refine .inr ⟨v, rfl, fun text htext => ?_, hv, stateOf_of_value hrests' hv⟩
    rw [heq', showing_of_display htext] at hreported
    cases hreported
  · rw [heq'] at hreported
    cases hreported
    rw [heq] at hmarks
    refine .inl ⟨congrArg Prod.fst heq, Session.stateOf_eq_failed.mpr ?_⟩
    simp only [h', heq']
    exact hmarks
  · rw [heq'] at hreported
    cases hreported

/-- Whether a problem was reported can be told. -/
instance decidableEqReported {α : Type} (phase : Phase) :
    (o : Outcome Trouble α) → Decidable (o = .error (.reported phase))
  | .error (.reported p) => decidable_of_iff (p = phase) (by simp)
  | .error (.semantic _) | .error (.accident _) | .ok _ | .exhausted => isFalse nofun

/-- A module fails because of its import, which has failed before. -/
theorem rendered_failure_state_imported :
    let c : Config := ⟨Reading.ofText, 8⟩
    let library : Library := ⟨⟨none, [], []⟩, .empty false, filing [("m", "l \"l\" l"), ("l", "missing")]⟩
    let h := (serve c byNeed [.evaluate "l"] (.start library)).2
    let h' := (render c "m" h).2
    (render c "m" h).1 = .error (.reported .evaluate) ∧
      (((evaluate c "m" h).1 = .error (.reported .evaluate) ∧ h'.rest.outer.stateOf "m" = .failed) ∨
      ∃ v, (evaluate c "m" h).1 = .ok v ∧
        (∀ text, (Eval.displayWith (walker c byNeed).force c.depth v (evaluate c "m" h).2).1 ≠ .ok text) ∧
        Table.find? h'.rest.outer.values "m" = some v ∧ h'.rest.outer.stateOf "m" = .evaluated) := by
  dsimp only
  refine ⟨?reported, rendered_failure_state _ _ _ _ _ ?reported⟩
  decide +kernel

/-- A list whose second item has no meaning is a value. It cannot be shown, and its module does not count as failed. -/
theorem lazy_failure_leaves_evaluated :
    let library : Library := ⟨⟨none, [], []⟩, .empty false, filing [("m", "[1, missing]")]⟩
    let rendered := render ⟨Reading.ofText, 8⟩ "m" (EngineState.start library)
    rendered.1 = .error (.reported .evaluate) ∧ rendered.2.rest.outer.stateOf "m" = .evaluated := by
  decide +kernel

end Engine

end LazyModules
