import LazyModules.Proofs.Discipline.Engine

/-!
# Which modules count as failed

A module counts as failed if reading it or evaluating it ends with a problem of the program. An accident does not count.

**Results.** `windUp_failed`: what counts as failed after the evaluation of a module. `evaluateWith_marks`: the session
knows how the evaluation of a module ended.
-/
namespace LazyModules

theorem Session.mem_markFailed {s : Session} {a b : String} : b ∈ (s.markFailed a).failed ↔ b ∈ s.failed ∨ b = a := by
  unfold markFailed
  split
  · rename_i ha
    have ha : a ∈ s.failed := List.contains_iff_mem.mp ha
    refine ⟨.inl, ?_⟩
    rintro (hb | rfl)
    · exact hb
    · exact ha
  · simp

/-- A problem of the program. -/
def Outcome.Faulty {α : Type} : Outcome Trouble α → Prop
  | .error (.semantic _) | .error (.reported _) => True
  | _ => False

namespace Engine

theorem Blames.failed_eq {e : SemanticError} {address : String} {s s' : Session} {t : Trouble}
    (h : Blames e address s t s') : s'.failed = s.failed := by
  cases h <;> rfl

/-- A module counts as failed if its body ended with a problem of the program. -/
theorem windUp_failed {address b : String} {r : Outcome Trouble Value × EngineState} :
    b ∈ (windUp address r).2.rest.outer.failed ↔ b ∈ r.2.rest.outer.failed ∨ b = address ∧ r.1.Faulty := by
  have hcalm (hr : ¬ r.1.Faulty) (hsame : (windUp address r).2.rest.outer.failed = r.2.rest.outer.failed) :
      b ∈ (windUp address r).2.rest.outer.failed ↔ b ∈ r.2.rest.outer.failed ∨ b = address ∧ r.1.Faulty := by
    rw [hsame]
    exact ⟨.inl, fun h => h.resolve_right fun h => hr h.2⟩
  have hfaulty (hr : r.1.Faulty)
      (hmark : (windUp address r).2.rest.outer.failed = (r.2.rest.outer.markFailed address).failed) :
      b ∈ (windUp address r).2.rest.outer.failed ↔ b ∈ r.2.rest.outer.failed ∨ b = address ∧ r.1.Faulty := by
    rw [hmark, Session.mem_markFailed]
    exact or_congr_right ⟨fun h => ⟨h, hr⟩, And.left⟩
  match r with
  | (.ok v, h) => exact hcalm id rfl
  | (.exhausted, h) => exact hcalm id rfl
  | (.error (.accident a), h) => exact hcalm id rfl
  | (.error (.reported phase), h) => exact hfaulty trivial rfl
  | (.error (.semantic e), h) =>
    obtain ⟨t, s, heq, hblames⟩ := blame_blames (α := Value) e address
      (Heap.setOuter h (h.rest.outer.markFailed address))
    have hhandle : handleTrouble address (.semantic e) h = (.error t, Heap.setOuter h s) := heq
    refine hfaulty trivial ?_
    simp only [windUp, Computation.bind, Computation.ensure, Computation.tryCatch, hhandle]
    exact hblames.failed_eq

/-- A session that knows how the evaluation of a module ended: it holds the value, or the module counts as failed. -/
def Marks (address : String) (s : Session) : Outcome Trouble Value → Prop
  | .ok v => Table.find? s.values address = some v
  | .error (.reported _) => address ∈ s.failed
  | _ => True

theorem marks_of_failed {address : String} {s : Session} (h : address ∈ s.failed) (t : Trouble) :
    Marks address s (.error t) := by
  cases t with
  | reported phase => exact h
  | semantic e => trivial
  | accident a => trivial

theorem windUp_marks (address : String) (r : Outcome Trouble Value × EngineState) :
    Marks address (windUp address r).2.rest.outer (windUp address r).1 := by
  have hfailed (hr : r.1.Faulty) : address ∈ (windUp address r).2.rest.outer.failed :=
    windUp_failed.mpr (.inr ⟨rfl, hr⟩)
  obtain ⟨o, s, heq, hsettles⟩ := windUp_settles address r
  rw [heq] at hfailed ⊢
  generalize r.1 = o₁ at hsettles hfailed
  cases hsettles with
  | valued v => exact (Table.find?_insert _ _ _ _).trans (if_pos rfl)
  | blamed _ => exact marks_of_failed (hfailed trivial) _
  | reported phase _ => exact hfailed trivial
  | accident a => trivial
  | exhausted => trivial

/-- A module has the value that was found for it, and it counts as failed if none was found for a reason that is
reported. -/
theorem evaluateWith_marks (c : Config) (W : Eval.Walker Session) (address : String) (h : EngineState) :
    Marks address (evaluateWith c W address h).2.rest.outer (evaluateWith c W address h).1 := by
  cases hvalue : Table.find? h.rest.outer.values address with
  | some v =>
    rw [evaluateWith_known hvalue]
    exact hvalue
  | none =>
    rw [evaluateWith_unknown hvalue]
    simp only [Computation.bind, Computation.tryCatch]
    rcases parse c address (Heap.setOuter h (h.rest.outer.note (.demanded address))) with ⟨o, h₁⟩
    cases o with
    | ok m =>
      simp only [evaluateModule_eq]
      exact windUp_marks address _
    | exhausted => trivial
    | error t =>
      cases t with
      | reported phase => exact Session.mem_markFailed.mpr (.inr rfl)
      | semantic e | accident a => trivial

end Engine

end LazyModules
