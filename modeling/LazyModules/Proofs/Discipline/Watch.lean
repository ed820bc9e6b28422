import LazyModules.Proofs.Engine.Layout
import LazyModules.Proofs.Scoping.Lexical

/-!
# Watching errors

A conduct says how a computation may go. A watch says something more of the errors that arise on the way, and needs no
invariant of its own: what is known where an error is raised comes from the conduct, and an error is blamed as it was
raised. So every error that is blamed in a run is as it should be.

**Results.** `Watch.conduct`: a conduct together with what is watched. `Watch.serve_sound`: in every run, what is watched
holds of every error that was blamed.
-/
namespace LazyModules.Engine

open Eval

/-- What is to hold of every error. It can depend on the modules that have been read, and is not lost when more are
read. There is one condition for each way in which an error can be raised. -/
structure Watch {c : Config} (K : Conduct c) where
  holds : Table Module → SemanticError → Prop
  mono : ∀ {ms ms' e}, Table.Gains ms ms' → holds ms e → holds ms' e
  objection : ∀ {h e s near} {o : Objection}, K.inv h → K.visit h e s → pointer? e = some (o.term, near) →
    holds h.rest.outer.modules ⟨.complaint (o.complaint near), some s.address⟩
  undefined : ∀ {h name start s}, K.inv h → K.visit h (.lookup name start) s →
    s.lookup? h.rest.frames name = none →
    holds h.rest.outer.modules ⟨.undefinedName name (s.names h.rest.frames), some s.address⟩
  circular : ∀ ms, holds ms ⟨.circular none, none⟩
  circularName : ∀ {h name start s}, K.inv h → K.visit h (.lookup name start) s →
    holds h.rest.outer.modules ⟨.circular (some name), some s.address⟩
  cycle : ∀ {h importer name target}, K.inv h → K.load h importer name target →
    holds h.rest.outer.modules (cycleError h.rest.outer.evaluating importer name target)

namespace Watch

variable {c : Config} {K : Conduct c} (P : Watch K)

/-- Every error that was blamed is as it should be. -/
def Sound (s : Session) : Prop := ∀ e a, .blamed e a ∈ s.journal → P.holds s.modules e

/-- Where a computation may lead: errors are as they should be if they were so before, and so is the one that it ends
with. -/
structure Leads (h : EngineState) (o : Outcome Trouble Unit) (h' : EngineState) : Prop where
  leads : K.leads h o h'
  sound : P.Sound h.rest.outer → P.Sound h'.rest.outer
  error : ∀ e, o = .error (.semantic e) → P.holds h'.rest.outer.modules e

variable {P} {h h' : EngineState} {o : Outcome Trouble Unit} {α : Type} {V : EngineState → α → Prop}
  {r : Outcome Trouble α × EngineState} {s s' : Session}

theorem Sound.mono (hs : P.Sound s) (hmodules : Table.Gains s.modules s'.modules)
    (hjournal : ∀ e a, .blamed e a ∈ s'.journal → .blamed e a ∈ s.journal ∨ P.holds s'.modules e) : P.Sound s' :=
  fun e a he => (hjournal e a he).elim (fun he => P.mono hmodules (hs e a he)) id

/-- The session stays as it is, and no error is raised. -/
theorem Leads.quiet (hleads : K.leads h o h') (houter : h'.rest.outer = h.rest.outer)
    (ho : ∀ e, o ≠ .error (.semantic e)) : P.Leads h o h' :=
  ⟨hleads, fun hs => houter ▸ hs, fun e he => absurd he (ho e)⟩

/-- An error is raised. -/
theorem Leads.raise {e : SemanticError} (hleads : K.leads h (.error (.semantic e)) h)
    (he : P.holds h.rest.outer.modules e) : P.Leads h (.error (.semantic e)) h := by
  refine ⟨hleads, id, fun e' he' => ?_⟩
  cases he'
  exact he

/-! ## Evaluation -/

variable (P) in
/-- What is known is as before, and errors are watched. -/
def outlook : Outlook Session := { K.toOutlook with leads := P.Leads }

theorem ends_of (hends : K.Ends h V r) (hleads : P.Leads h r.1.ending r.2) : P.outlook.Ends h V r :=
  ⟨hends.inv, hleads, hends.result⟩

theorem ends_to (hends : P.outlook.Ends h V r) : K.Ends h V r := ⟨hends.inv, hends.leads.leads, hends.result⟩

theorem keeps_to {a a' : Action α} (ha : P.outlook.Keeps h V a a') : K.Keeps h V a a' :=
  fun hinv => (ha hinv).imp_right ends_to

theorem respects_to {W W' : Walker Session} (hW : P.outlook.Respects W W') : K.Respects W W' where
  delays := hW.delays
  strict hvisit := keeps_to (hW.strict hvisit)
  delay hvisit := keeps_to (hW.delay hvisit)
  force hx := keeps_to (hW.force hx)
  look hvisit hx := keeps_to (hW.look hvisit hx)
  compare ha hb := keeps_to (hW.compare ha hb)

variable (P) in
def discipline : Discipline Session where
  toOutlook := P.outlook
  refl hinv := .quiet (K.refl hinv) rfl nofun
  trans hle hle' := ⟨K.trans hle.leads hle'.leads, fun hs => hle'.sound (hle.sound hs), hle'.error⟩
  visit_mono hle := K.visit_mono hle.leads
  cell_mono hle := K.cell_mono hle.leads
  part := K.part
  found := K.found
  freshId hinv := ends_of (K.freshId hinv) (.quiet (K.freshId hinv).leads rfl nofun)
  alloc hinv hvisit := ends_of (K.alloc hinv hvisit) (.quiet (K.alloc hinv hvisit).leads rfl nofun)
  enter hinv hvisit hxs hlength := by
    have hends := K.enter hinv hvisit hxs hlength
    refine ends_of hends (.quiet hends.leads ?_ ?_)
    · rw [enter_eq]
      rfl
    · rw [enter_eq]
      exact nofun
  done := K.done
  run hinv hcell hi := by
    obtain ⟨hbusy, hwanted, hafter⟩ := K.run hinv hcell hi
    refine ⟨hbusy, hwanted, fun r hends => ends_of (hafter r (ends_to hends)) ?_⟩
    exact ⟨(hafter r (ends_to hends)).leads, hends.leads.sound, hends.leads.error⟩
  exhausted hinv := .quiet (K.exhausted hinv) rfl nofun
  accident a hinv := .quiet (K.accident a hinv) rfl nofun
  objection hinv hvisit hpointer := .raise (K.objection hinv hvisit hpointer) (P.objection hinv hvisit hpointer)
  undefined hinv hvisit hname := .raise (K.undefined hinv hvisit hname) (P.undefined hinv hvisit hname)
  circular hinv hi := .raise (K.circular hinv hi) (P.circular _)
  circularName hinv hvisit hi := .raise (K.circularName hinv hvisit hi) (P.circularName hinv hvisit)

/-! ## The engine -/

section Engine

variable {address : String} {m : Module} {l : Library}

theorem sound_opened (hopening : Opening c h address m s l) (hs : P.Sound h.rest.outer) :
    P.Sound (opened h s l address).rest.outer := by
  refine hs.mono hopening.parses.modules_gain fun e a he => .inl ?_
  have he : .blamed e a ∈ s.journal := by simpa [opened, Session.enter, Session.setLibrary, Session.note] using he
  simpa [Session.note] using hopening.parses.of_blamed he

/-- The scope of a module is made without touching the session. -/
theorem moduleScope_quiet {W : Walker Session} (hdelays : W.delay = Eval.delay) :
    (moduleScope W address m h).2.rest.outer = h.rest.outer ∧
      ∀ e, (moduleScope W address m h).1.ending ≠ .error (.semantic e) := by
  rw [moduleScope_eq fun _ _ _ _ => by rw [hdelays]]
  exact ⟨rfl, nofun⟩

theorem leads_settles {a : Outcome Trouble Value × EngineState} {o : Outcome Trouble Value}
    (hopening : Opening c h address m s l) (hends : P.outlook.Ends (opened h s l address) K.Value a)
    (hsettles : Settles address a.2.rest.outer a.1 o s') (hleads : K.leads h o.ending (Heap.setOuter a.2 s')) :
    P.Leads h o.ending (Heap.setOuter a.2 s') := by
  refine ⟨hleads, fun hs => ?_, fun e he => absurd he (hsettles.ne_semantic e)⟩
  have hbody := hends.leads.sound (sound_opened hopening hs)
  refine hbody.mono (hsettles.modules_eq ▸ .refl _) fun e a he => (hsettles.of_blamed he).imp id fun ⟨hr, _⟩ => ?_
  rw [Heap.outer_setOuter, hsettles.modules_eq]
  exact hends.leads.error e (by rw [hr]; rfl)

theorem leads_blames {e : SemanticError} {t : Trouble} (hle : P.Leads h (.error (.semantic e)) h')
    (hblames : Blames e address h'.rest.outer t s) (hleads : K.leads h (.error t) (Heap.setOuter h' s)) :
    P.Leads h (.error t) (Heap.setOuter h' s) := by
  refine ⟨hleads, fun hs => ?_, fun e' he' => absurd he' hblames.ne_semantic⟩
  refine (hle.sound hs).mono (hblames.modules_eq ▸ .refl _) fun e' a he => (hblames.of_blamed he).imp id ?_
  rintro ⟨rfl, -⟩
  rw [Heap.outer_setOuter, hblames.modules_eq]
  exact hle.error e' rfl

variable (P) in
def conduct : Conduct c where
  toDiscipline := P.discipline
  ask := K.ask
  ask_of_load := K.ask_of_load
  known hinv hask hv := by
    have hends := K.known hinv hask hv
    refine ends_of hends ⟨hends.leads, fun hs => hs.mono (.refl _) fun e a he => .inl ?_, nofun⟩
    simpa [Session.note] using he
  unread hinv hask hv hparses ho failed := by
    obtain ⟨hinv', hleads⟩ := K.unread hinv hask hv hparses ho failed
    refine ⟨hinv', hleads, fun hs => ?_, fun e he => absurd he (hparses.ne_semantic e)⟩
    refine hs.mono hparses.modules_gain fun e a he => .inl ?_
    simpa [Session.note] using hparses.of_blamed he
  opens hinv hask hopening := by
    obtain ⟨hinv', hscope⟩ := K.opens hinv hask hopening
    refine ⟨hinv', fun hW hinv' => ?_⟩
    obtain ⟨heq, hends⟩ := hscope (respects_to hW) hinv'
    obtain ⟨houter, hquiet⟩ := moduleScope_quiet hW.delays
    exact ⟨heq, ends_of hends (.quiet hends.leads houter hquiet)⟩
  settles hinv hask hopening hends hsettles := by
    have hends' := K.settles hinv hask hopening (ends_to hends) hsettles
    exact ends_of hends' (leads_settles hopening hends hsettles hends'.leads)
  cycle hinv hload htarget := .raise (K.cycle hinv hload htarget) (P.cycle hinv hload)
  blames hinv hinv' hle hblames := by
    obtain ⟨hinv'', hleads⟩ := K.blames hinv hinv' hle.leads hblames
    exact ⟨hinv'', leads_blames hle hblames hleads⟩

end Engine

/-! ## Runs -/

theorem lasts (hlasts : K.Lasts) : P.conduct.Lasts where
  ask := hlasts.ask
  evaluating hle := hlasts.evaluating hle.leads
  change world hinv := (hlasts.change world hinv).imp_right fun hleads => ⟨hleads, id, nofun⟩

/-- In every run, what is watched holds of every error that was blamed. -/
theorem serve_sound (hlasts : K.Lasts) (requests : List Request) (hidle : K.Idle h) (hs : P.Sound h.rest.outer) :
    P.Sound (serve c byNeed requests h).2.rest.outer := by
  induction requests generalizing h with
  | nil => exact hs
  | cons q requests ih =>
    have hlasts' : P.conduct.Lasts := lasts hlasts
    obtain ⟨-, hidle', hleads⟩ := Conduct.answer_keeps hlasts' Conduct.byNeed_walks hidle q
    exact ih hidle' (hleads.sound hs)

end Watch

end LazyModules.Engine
