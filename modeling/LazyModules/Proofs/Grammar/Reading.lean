import Mathlib.Logic.ExistsUnique
import LazyModules.Reading
import LazyModules.Proofs.Grammar.Simulation
import LazyModules.Proofs.Grammar.Completeness

/-!
# Reading is deriving

* `build_sound`, `build_eq_some_iff`: the builder ends with a derivation exactly if it is the one of the
  tokens that the precedences choose.
* `accepts_iff`: the machine of `Parse` accepts tokens exactly if the builder ends with a lawful derivation.
* `accepted_iff_derivable`: a text is read exactly if its tokens can be derived, and what is read is what
  the parse actions make of the derivation that the precedences choose.
* `derivation_of_accepted`: that derivation, for a text that is read.
-/
namespace LazyModules.Grammar

open LazyModules.Grammar.Derivation (yield_regroup preferred_regroup lawful_regroup)

theorem ready_start : State.start.Ready := ⟨⟨by simp [State.start], trivial, trivial⟩, trivial⟩

theorem image_start : State.start.image (some 0) = Parse.State.start := rfl

theorem lawful_start : State.start.Lawful := ⟨by simp [State.start], trivial, trivial⟩

/-! ## The builder -/

theorem build_eq_some {ts : List Token} {d : Derivation .module} (h : build ts = some d) :
    ∃ s slip, State.start.run ts = some s ∧ s.finish = some (d, slip) := by
  obtain ⟨⟨d', slip⟩, hbind, rfl⟩ := Option.map_eq_some_iff.mp h
  obtain ⟨s, hrun, hfinish⟩ := Option.bind_eq_some_iff.mp hbind
  exact ⟨s, slip, hrun, hfinish⟩

theorem build_sound {ts : List Token} {d : Derivation .module} (h : build ts = some d) :
    d.yield = ts ∧ d.Preferred := by
  obtain ⟨s, slip, hrun, hfinish⟩ := build_eq_some h
  obtain ⟨htokens, hready, -⟩ := run_takes _ _ _ hrun
  obtain ⟨hyield, hpreferred, -⟩ := finish_builds _ _ _ hfinish
  exact ⟨by rw [hyield, htokens]; rfl, hpreferred (hready ready_start)⟩

theorem build_eq_some_iff (ts : List Token) (d : Derivation .module) :
    build ts = some d ↔ d.yield = ts ∧ d.Preferred :=
  ⟨build_sound, fun ⟨hyield, h⟩ => hyield ▸ build_yield d h⟩

/-- Among the derivations of the same tokens the precedences choose one. -/
theorem existsUnique_preferred (d : Derivation .module) :
    ∃! p : Derivation .module, p.yield = d.yield ∧ p.Preferred := by
  refine ⟨d.regroup, ⟨yield_regroup d, preferred_regroup d⟩, fun p hp => ?_⟩
  have h := build_yield d.regroup (preferred_regroup d)
  rw [yield_regroup, (build_eq_some_iff _ p).mpr hp] at h
  exact Option.some.inj h

/-! ## The machine -/

theorem feedAll_of_run {s s' : State} {ts : List Token} (h : s.run ts = some s') (hs' : s'.Lawful)
    (settled : Option Nat) : ∃ settled', (s.image settled).feedAll ts = .ok (s'.image settled') := by
  induction ts generalizing s settled with
  | nil =>
    obtain rfl := Option.some.inj h
    exact ⟨settled, rfl⟩
  | cons t ts ih =>
    obtain ⟨⟨u, slip⟩, hu, h⟩ := Option.bind_eq_some_iff.mp h
    have hlawful := (run_takes u s' ts h).2.2 hs'
    obtain ⟨-, rfl⟩ := (step_takes s u t.lexeme t.start slip hu).lawful.mp hlawful
    have hfeed := feed_agrees s t settled
    simp only [hu] at hfeed
    obtain ⟨settled', hfeed⟩ := hfeed
    simpa [Parse.State.feedAll, hfeed] using ih h settled'

theorem run_of_feedAll {s : State} {ts : List Token} {t : Parse.State} {settled : Option Nat}
    (h : (s.image settled).feedAll ts = .ok t) (hs : s.Lawful) :
    ∃ s' settled', s.run ts = some s' ∧ s'.Lawful ∧ t = s'.image settled' := by
  induction ts generalizing s settled with
  | nil => exact ⟨s, settled, rfl, hs, (Except.ok.inj h).symm⟩
  | cons x ts ih =>
    have hfeed := feed_agrees s x settled
    match hstep : s.step x.lexeme x.start with
    | none => simp [hstep] at hfeed; simp [Parse.State.feedAll, hfeed] at h
    | some (u, some i) => simp [hstep] at hfeed; simp [Parse.State.feedAll, hfeed] at h
    | some (u, none) =>
      simp only [hstep] at hfeed
      obtain ⟨settled', hfeed⟩ := hfeed
      simp only [Parse.State.feedAll, hfeed] at h
      have hu := (step_takes s u x.lexeme x.start none hstep).lawful.mpr ⟨hs, rfl⟩
      obtain ⟨s', settled'', hrun, hs', ht⟩ := ih h hu
      exact ⟨s', settled'', by simp [State.run, hstep, hrun], hs', ht⟩

/-- The machine of `Parse` accepts what the builder builds, if it is lawful. -/
theorem accepts_iff (ts : List Token) (length : Nat) (m : ModuleSyntax) :
    (∃ t, Parse.State.start.feedAll ts = .ok t ∧ t.finish length = .ok m) ↔
      ∃ d, build ts = some d ∧ d.Lawful ∧ d.meaning = m := by
  constructor
  · rintro ⟨t, hfeed, hfinish⟩
    obtain ⟨s, settled, hrun, hs, rfl⟩ := run_of_feedAll (s := State.start) hfeed lawful_start
    have hagrees := finish_agrees s settled length
    match hf : s.finish with
    | none => simp [hf, hfinish] at hagrees
    | some (d, some i) => simp [hf, hfinish] at hagrees
    | some (d, none) =>
      simp only [hf, hfinish, Except.ok.injEq] at hagrees
      refine ⟨d, by simp [build, hrun, hf], ?_, hagrees.symm⟩
      exact (finish_builds s d none hf).2.2.mpr ⟨hs, rfl⟩
  · rintro ⟨d, hbuild, hd, rfl⟩
    obtain ⟨s, slip, hrun, hf⟩ := build_eq_some hbuild
    obtain ⟨hs, rfl⟩ := (finish_builds s d slip hf).2.2.mp hd
    obtain ⟨settled, hfeed⟩ := feedAll_of_run hrun hs (some 0)
    rw [image_start] at hfeed
    have hagrees := finish_agrees s settled length
    rw [hf] at hagrees
    exact ⟨s.image settled, hfeed, hagrees⟩

theorem verdict_eq_accepted_iff (text : String) (hend : (Scan.scan text.toList).stop = .ended)
    (m : ModuleSyntax) :
    (Reading.ofText text).verdict = .accepted m ↔
      ∃ t, Parse.State.start.feedAll (Scan.scan text.toList).tokens = .ok t ∧
        t.finish text.toList.length = .ok m := by
  unfold Reading.ofText
  cases hfeed : Parse.State.start.feedAll (Scan.scan text.toList).tokens with
  | error h => simp [hfeed, Reading.stopped]
  | ok t =>
    cases hfinish : t.finish text.toList.length with
    | error h => simp [hfeed, hend, hfinish, Reading.stopped]
    | ok m' => simp [hfeed, hend, hfinish]

/-- A text that scans to its end is read exactly if its tokens can be derived from the productions, with
lone names in the parentheses before arrows. What is read is what the parse actions make of the derivation
that the precedences choose, and of the derivations of the same tokens they choose exactly one. -/
theorem accepted_iff_derivable (text : String) (hend : (Scan.scan text.toList).stop = .ended) :
    ((∃ m, (Reading.ofText text).verdict = .accepted m) ↔
      ∃ d : Derivation .module, d.yield = (Scan.scan text.toList).tokens ∧ d.Lawful) ∧
    (∀ m, (Reading.ofText text).verdict = .accepted m ↔
      ∃ d : Derivation .module, d.yield = (Scan.scan text.toList).tokens ∧ d.Lawful ∧ d.Preferred ∧
        d.meaning = m) ∧
    ∀ d : Derivation .module, ∃! p : Derivation .module, p.yield = d.yield ∧ p.Preferred := by
  have haccepted (m : ModuleSyntax) := (verdict_eq_accepted_iff text hend m).trans (accepts_iff _ _ m)
  refine ⟨?_, fun m => ?_, existsUnique_preferred⟩
  · constructor
    · rintro ⟨m, hm⟩
      obtain ⟨d, hbuild, hd, -⟩ := (haccepted m).mp hm
      exact ⟨d, (build_sound hbuild).1, hd⟩
    · rintro ⟨d, hyield, hd⟩
      have hbuild := build_yield d.regroup (preferred_regroup d)
      rw [yield_regroup, hyield] at hbuild
      exact ⟨d.regroup.meaning, (haccepted _).mpr ⟨d.regroup, hbuild, lawful_regroup d hd, rfl⟩⟩
  · rw [haccepted]
    simp only [build_eq_some_iff]
    constructor
    · rintro ⟨d, ⟨hyield, hp⟩, hd, hm⟩
      exact ⟨d, hyield, hd, hp, hm⟩
    · rintro ⟨d, hyield, hd, hp, hm⟩
      exact ⟨d, ⟨hyield, hp⟩, hd, hm⟩

theorem accepted_iff_derivable_lambda :
    let text := "f = (x) => 1 - if x then 2 else x * 3 - 4 - x\nf(0)"
    (Scan.scan text.toList).stop = .ended ∧
      ∃ d : Derivation .module, d.yield = (Scan.scan text.toList).tokens ∧ d.Lawful :=
  ⟨rfl, (accepted_iff_derivable _ rfl).1.mp ⟨_, rfl⟩⟩

/-- A text that is read scans to its end. -/
theorem stop_of_accepted {text : String} {m : ModuleSyntax} (h : (Reading.ofText text).verdict = .accepted m) :
    (Scan.scan text.toList).stop = .ended := by
  cases hfeed : Parse.State.start.feedAll (Scan.scan text.toList).tokens with
  | error e => simp [Reading.ofText, hfeed, Reading.stopped] at h
  | ok t =>
    cases hstop : (Scan.scan text.toList).stop with
    | ended => rfl
    | blocked i => simp [Reading.ofText, hfeed, hstop, Reading.stopped] at h
    | fault f => simp [Reading.ofText, hfeed, hstop] at h

/-- What is read from a text is what the parse actions make of the derivation that the precedences choose. -/
theorem derivation_of_accepted {text : String} {m : ModuleSyntax}
    (h : (Reading.ofText text).verdict = .accepted m) :
    ∃ d : Derivation .module, d.yield = (Scan.scan text.toList).tokens ∧ d.Lawful ∧ d.Preferred ∧
      d.meaning = m := by
  have haccepts := (verdict_eq_accepted_iff text (stop_of_accepted h) m).mp h
  obtain ⟨d, hbuild, hlawful, hmeaning⟩ := (accepts_iff _ _ m).mp haccepts
  obtain ⟨hyield, hpreferred⟩ := build_sound hbuild
  exact ⟨d, hyield, hlawful, hpreferred, hmeaning⟩

end LazyModules.Grammar
