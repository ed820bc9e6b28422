import LazyModules.Proofs.Engine.Requests
import LazyModules.Proofs.Meaning.Modules

/-!
# Engines between requests

Between two requests nothing is busy. Then what has failed has no value in any program that has the modules read so far,
while what has a value has one in every such program. So the two cannot be the same, and what has failed fails again.

**Results.** `rests_start`, `Rests.serve`: so it is from the start to the end of a run. `Rests.values_of_failed`,
`Rests.evaluate_ne_ok`: what has failed has no value, and does not get one.
-/
namespace LazyModules.Meaning

open Engine

variable {c : Config} {w : World c} {α β : Type}

/-! ## Showing values -/

/-- A computation leads from a world to a later one. What it means does not matter. -/
def Leads (w : World c) (R : World c → α → Prop) (x : Action α) : Prop :=
  ∃ o, ∃ w' : World c, x w.heap = (o, w'.heap) ∧ w.Le w' ∧ ∀ a, o = .ok a → R w' a

namespace Leads

variable {R : World c → α → Prop} {S : World c → β → Prop} {x : Action α}

theorem pure {a : α} (h : R w a) : Leads w R (Pure.pure a) :=
  ⟨.ok a, w, rfl, .refl w, fun _ hb => Outcome.ok.inj hb ▸ h⟩

theorem fail (t : Trouble) : Leads w R (Computation.fail t) := ⟨.error t, w, rfl, .refl w, nofun⟩

theorem exhaust : Leads w R Computation.exhaust := ⟨.exhausted, w, rfl, .refl w, nofun⟩

theorem of_tracks {T : World c → α → β → Prop} {y : Family β} (h : Tracks w T x y) :
    Leads w (fun w' a => ∃ b, T w' a b) x := by
  obtain ⟨o, w', hx, hle, hends⟩ := h
  refine ⟨o, w', hx, hle, fun a ha => ?_⟩
  subst ha
  cases hends with
  | ok h _ _ => exact ⟨_, h⟩
  | lost ho => exact ho.elim
  | doomed ho => exact absurd rfl (ho a)

theorem bind {f : α → Action β} (h : Leads w R x) (hf : ∀ w', w.Le w' → ∀ a, R w' a → Leads w' S (f a)) :
    Leads w S (x >>= f) := by
  obtain ⟨o, w₁, hx, hle₁, hR⟩ := h
  have hbind : (x >>= f) w.heap = x.bind f w.heap := rfl
  simp only [Computation.bind, hx] at hbind
  cases o with
  | ok a =>
    obtain ⟨o, w₂, hx₂, hle₂, hS⟩ := hf w₁ hle₁ a (hR a rfl)
    exact ⟨o, w₂, hbind.trans hx₂, hle₁.trans hle₂, hS⟩
  | error t => exact ⟨_, w₁, hbind, hle₁, fun a ha => absurd ha (Outcome.error_ne_ok t a)⟩
  | exhausted => exact ⟨_, w₁, hbind, hle₁, fun a ha => absurd ha (Outcome.exhausted_ne_ok a)⟩

theorem mapList {f : α → Action β} (hR : ∀ {w w'}, w.Le w' → ∀ {a}, R w a → R w' a)
    (hf : ∀ w a, R w a → Leads w (fun _ _ => True) (f a)) {xs : List α} (hxs : ∀ a ∈ xs, R w a) :
    Leads w (fun _ _ => True) (Eval.mapList f xs) := by
  induction xs generalizing w with
  | nil => exact .pure trivial
  | cons a xs ih =>
    refine (hf w a (hxs a (List.mem_cons_self ..))).bind fun w₁ hle₁ _ _ => ?_
    refine (ih fun b hb => hR hle₁ (hxs b (List.mem_cons_of_mem _ hb))).bind fun w₂ _ _ _ => .pure trivial

theorem tryCatch {f : Trouble → Action α} (h : Leads w R x) (hf : ∀ w', w.Le w' → ∀ t, Leads w' R (f t)) :
    Leads w R (x.tryCatch f) := by
  obtain ⟨o, w₁, hx, hle₁, hR⟩ := h
  cases o with
  | error t =>
    obtain ⟨o, w₂, hx₂, hle₂, hR₂⟩ := hf w₁ hle₁ t
    refine ⟨o, w₂, ?_, hle₁.trans hle₂, hR₂⟩
    simp only [Computation.tryCatch, hx, hx₂]
  | ok a => exact ⟨.ok a, w₁, by simp only [Computation.tryCatch, hx], hle₁, hR⟩
  | exhausted =>
    refine ⟨.exhausted, w₁, ?_, hle₁, fun a ha => absurd ha (Outcome.exhausted_ne_ok a)⟩
    simp only [Computation.tryCatch, hx]

/-- An error is blamed on a module, which does not fail for that. -/
theorem blame (e : SemanticError) (address : String) : Leads w R (Engine.blame e address) := by
  obtain ⟨t, s, heq, hblames⟩ := blame_blames (α := α) e address w.heap
  have hwords : Rewords c w.session s :=
    ⟨hblames.values_eq, hblames.evaluating_eq, hblames.grows.loaded, fun hy => .inl (hblames.modules_eq ▸ hy)⟩
  have hsame : s.failed = w.session.failed := by cases hblames <;> rfl
  exact ⟨.error t, w.reword hwords fun ha => .inl (hsame ▸ ha), heq, World.le_reword hwords fun ha => hsame ▸ ha, nofun⟩

end Leads

/-- A slot at hand that stands for something. -/
def World.Slot (w : World c) (x : LazyModules.Slot) : Prop := ∃ y, w.SlotRel x y

def World.Value (w : World c) (v : LazyModules.Value) : Prop := ∃ b, w.ValueRel v b

theorem exists_of_forall₂ {R : α → β → Prop} {xs : List α} {ys : List β} (h : List.Forall₂ R xs ys) :
    ∀ a ∈ xs, ∃ b, R a b := by
  induction h with
  | nil => simp
  | cons hab _ ih =>
    intro a ha
    rcases List.mem_cons.mp ha with rfl | ha
    · exact ⟨_, hab⟩
    · exact ih a ha

theorem showWith_leads {force : LazyModules.Slot → Action LazyModules.Value}
    (hforce : ∀ (w : World c) x, w.Slot x → Leads w World.Value (force x)) (n : Nat) (busy : List Nat)
    {v : LazyModules.Value} (hv : w.Value v) : Leads w (fun _ _ => True) (Eval.showWith force n busy v) := by
  have hslot {w w' : World c} (hle : w.Le w') {x : LazyModules.Slot} (hx : w.Slot x) : w'.Slot x :=
    hx.imp fun _ => hle.slotRel
  induction n generalizing w busy v with
  | zero => exact .exhaust
  | succ n ih =>
    obtain ⟨b, hb⟩ := hv
    cases hb with
    | nil | flag _ | text _ | function _ _ _ _ => exact .pure trivial
    | @number x y h =>
      simp only [Eval.showWith]
      split
      · exact .pure trivial
      · exact .fail _
    | @list i xs ys hxs =>
      simp only [Eval.showWith]
      split
      · exact .pure trivial
      · refine .bind (.mapList hslot (fun w x hx => ?_) (exists_of_forall₂ hxs)) fun _ _ _ _ => .pure trivial
        exact (hforce w x hx).bind fun w' _ v hv => ih (i :: busy) hv
    | @record i xs ys hxs =>
      simp only [Eval.showWith]
      split
      · exact .pure trivial
      · refine .bind (.mapList (R := fun w f => w.Slot f.2) (fun hle _ => hslot hle) (fun w f hf => ?_) fun f hf => ?_)
          fun _ _ _ _ => .pure trivial
        · refine (hforce w f.2 hf).bind fun w' _ v hv => ?_
          exact (ih (i :: busy) hv).bind fun _ _ _ _ => .pure trivial
        · obtain ⟨p, hp⟩ := exists_of_forall₂ hxs f hf
          exact ⟨p.2, hp.2⟩

theorem displayWith_leads {force : LazyModules.Slot → Action LazyModules.Value}
    (hforce : ∀ (w : World c) x, w.Slot x → Leads w World.Value (force x)) (n : Nat) {v : LazyModules.Value}
    (hv : w.Value v) : Leads w (fun _ _ => True) (Eval.displayWith force n v) := by
  unfold Eval.displayWith
  split
  · exact .pure trivial
  · exact showWith_leads hforce n [] hv

/-! ## Requests -/

/-- An engine between requests stands for something, and nothing is busy. -/
def Rests (c : Config) (h : EngineState) : Prop := ∃ w : World c, w.heap = h ∧ ∀ q, ¬ w.Task q .busy

/-- Nothing that a new engine has stands for anything. -/
def nothing : Map := ⟨fun _ _ => False, fun _ _ => False, fun _ _ => False, fun _ => False⟩

theorem task_start {library : Library} {q : Question} {p : Progress} (h : nothing.Task (.start library) q p) :
    p = .waiting := by
  cases h with
  | cell hx _ _ => exact hx.elim
  | module a hp => exact hp.symm

theorem valid_start (c : Config) (library : Library) : Valid c nothing (.start library) .outside fun _ => 0 where
  ident_lt := False.elim
  ident_used := False.elim
  ident_unique := False.elim
  cell_used := False.elim
  cell_unique := False.elim
  cell_inner := False.elim
  cell_job := False.elim
  cell_near := False.elim
  scope_used := False.elim
  scope_suits := False.elim
  waiting _ := False.elim
  done h := nomatch task_start h
  unmade _ _ := False.elim
  current := .inl rfl
  evaluating := nofun
  said := nofun

theorem rests_start (c : Config) (library : Library) : Rests c (.start library) := by
  refine ⟨⟨nothing, .start library, .outside, fun _ => 0, valid_start c library, nofun⟩, rfl, fun q hq => ?_⟩
  cases task_start hq

section Resting

variable {h : EngineState} (hrests : Rests c h)
include hrests

/-- What has failed has no value in any program that has the modules read so far. -/
theorem Rests.not_succeeds {a : String} (ha : a ∈ h.rest.outer.failed) {P : Program} (hP : Compat c P h.rest.outer)
    (d : Nat) : ¬ Succeeds P d (.module a) := by
  obtain ⟨w, rfl, hidle⟩ := hrests
  intro hd
  obtain ⟨q, hq, -⟩ := w.failed ha hP hd
  exact hidle q hq

/-- What has failed has no value. -/
theorem Rests.values_of_failed {a : String} (ha : a ∈ h.rest.outer.failed) :
    Table.find? h.rest.outer.values a = none := by
  have hnone := hrests.not_succeeds ha (compat_ofLoaded c h.rest.outer)
  obtain ⟨w, rfl, hidle⟩ := hrests
  by_contra hsome
  obtain ⟨v, hv⟩ := Option.ne_none_iff_exists'.mp hsome
  have hdone : w.Task (.module a) (.done v) := .module a (by simp only [Session.progress, hv])
  obtain ⟨b, -, hcomes⟩ := w.valid.done hdone
  obtain ⟨n, hn⟩ := (hcomes (compat_ofLoaded c w.session) w.place).late
  exact hnone n ⟨_, _, hn n (Nat.le_refl n)⟩

end Resting

/-- An engine between requests after another one. What has failed has failed. -/
structure Resumes (c : Config) (h h' : EngineState) : Prop where
  rests : Rests c h'
  failed : ∀ {a}, a ∈ h.rest.outer.failed → a ∈ h'.rest.outer.failed

theorem resumes_of_le (hidle : ∀ q, ¬ w.Task q .busy) {w' : World c} (hle : w.Le w') : Resumes c w.heap w'.heap :=
  ⟨⟨w', rfl, fun q hq => hidle q (hle.busy.mp hq)⟩, hle.failed⟩

theorem not_mem_evaluating (hidle : ∀ q, ¬ w.Task q .busy) (a : String) : a ∉ w.session.evaluating :=
  fun ha => hidle _ (.module a (progress_of_mem (w.valid.evaluating ha) ha))

theorem walker_tracks (c : Config) : EvalTracks c (walker c byNeed).strict :=
  eval_tracks (loader_tracks c.depth) c.depth

theorem evaluate_tracks (hidle : ∀ q, ¬ w.Task q .busy) (a : String) :
    Tracks w World.ValueRel (evaluate c a) fun P d => answer P d (.module a) :=
  evaluateWith_tracks (walker_tracks c) rfl (not_mem_evaluating hidle a)

theorem render_leads (hidle : ∀ q, ¬ w.Task q .busy) (a : String) : Leads w (fun _ _ => True) (render c a) := by
  refine (Leads.of_tracks (evaluate_tracks hidle a)).bind fun w' _ v hv => ?_
  have hforce (w : World c) (x : LazyModules.Slot) (hx : w.Slot x) :
      Leads w World.Value ((walker c byNeed).force x) := by
    obtain ⟨y, hxy⟩ := hx
    exact .of_tracks (forceWith_tracks (loader_tracks c.depth) (walker_tracks c) hxy)
  refine (displayWith_leads hforce c.depth hv).tryCatch fun w'' _ t => ?_
  cases t with
  | semantic e => exact .blame e a
  | reported phase => exact .fail _
  | accident t => exact .fail _

section Serving

variable {h : EngineState} (hrests : Rests c h)
include hrests

/-- What has failed fails again. -/
theorem Rests.evaluate_ne_ok {a : String} (ha : a ∈ h.rest.outer.failed) (v : LazyModules.Value) :
    (evaluate c a h).1 ≠ .ok v := by
  obtain ⟨w, rfl, hidle⟩ := hrests
  obtain ⟨o, w', hx, hle, hends⟩ := evaluate_tracks hidle a
  rw [hx]
  rintro rfl
  have hresumes := resumes_of_le hidle hle
  cases hends with
  | lost ho => exact ho
  | doomed ho => exact ho v rfl
  | ok _ _ harrives =>
    have hP := compat_ofLoaded c w'.session
    obtain ⟨n, hn⟩ := (harrives hP).late
    exact hresumes.rests.not_succeeds (hresumes.failed ha) hP n ⟨_, _, hn n (Nat.le_refl n)⟩

/-- A request is answered. -/
theorem Rests.answer (q : Request) : Resumes c h (Engine.answer c byNeed h q).2 := by
  obtain ⟨w, rfl, hidle⟩ := hrests
  cases q with
  | evaluate a =>
    obtain ⟨o, w', hx, hle, -⟩ := evaluate_tracks hidle a
    have hx : evaluateBy c byNeed a w.heap = (o, w'.heap) := hx
    simp only [Engine.answer, hx]
    exact resumes_of_le hidle hle
  | render a =>
    obtain ⟨o, w', hx, hle, -⟩ := render_leads hidle a
    have hx : renderBy c byNeed a w.heap = (o, w'.heap) := hx
    simp only [Engine.answer, hx]
    exact resumes_of_le hidle hle
  | change world =>
    have hwords : Rewords c w.session (w.session.setLibrary { w.session.library with world := world }) :=
      ⟨rfl, rfl, .refl _, .inl⟩
    have hle : w.Le (w.reword hwords .inl) := World.le_reword hwords id
    exact resumes_of_le hidle hle

/-- Requests are answered one after the other. -/
theorem Rests.serve (qs : List Request) : Resumes c h (Engine.serve c byNeed qs h).2 := by
  induction qs generalizing h with
  | nil => exact ⟨hrests, id⟩
  | cons q qs ih =>
    obtain ⟨hrests', hfailed⟩ := hrests.answer q
    obtain ⟨hrests'', hfailed'⟩ := ih hrests'
    exact ⟨hrests'', fun ha => hfailed' (hfailed ha)⟩

end Serving

end LazyModules.Meaning
