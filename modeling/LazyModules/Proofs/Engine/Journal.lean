import Mathlib.Data.List.Nodup
import Mathlib.Data.List.Perm.Subperm
import LazyModules.Proofs.Discipline.Session
import LazyModules.Proofs.Engine.Failure
import LazyModules.Proofs.Engine.Requests

/-!
# Every module once

The journal of a session tells what happened to modules, the latest first. It is orderly: nobody is consulted
about a module that has been read, and no module is entered that has a value or is under evaluation. The
tables of a session hold exactly what the journal tells (`Recorded`), so that the checks which the engine
makes on the tables keep the journal orderly.

A computation that ends with a result leaves no module behind that was entered and has no value
(`Balanced`). So in a run without failures every module that was demanded has been entered once.

**Results.**
* `recorded`: the engine keeps the journal orderly.
* `modules_run_once`: in every run every module is read at most once and has at most one value.
-/
namespace LazyModules.Engine

/-! ## Orderly journals -/

/-- The modules under evaluation, the latest last, after all that has happened. -/
def openModules : List Event → List String
  | [] => []
  | .entered address :: journal => openModules journal ++ [address]
  | .left _ :: journal => (openModules journal).dropLast
  | _ :: journal => openModules journal

/-- What may happen after all that has happened. -/
def Allowed (journal : List Event) : Event → Prop
  | .consulted _ address => .stored address ∉ journal
  | .stored address => .stored address ∉ journal
  | .entered address =>
    .stored address ∈ journal ∧ .valued address ∉ journal ∧ address ∉ openModules journal
  | .valued address => .valued address ∉ journal
  | .demanded _ | .left _ | .blamed _ _ => True

/-- A journal of events each of which was allowed when it happened. -/
inductive Orderly : List Event → Prop where
  | nil : Orderly []
  | cons {e : Event} {journal : List Event} (h : Orderly journal) (he : Allowed journal e) :
      Orderly (e :: journal)

namespace Orderly

variable {journal earlier later : List Event}

theorem suffix (h : Orderly journal) (hnow : earlier <:+ journal) : Orderly earlier := by
  induction h with
  | nil => rw [List.suffix_nil.mp hnow]; exact .nil
  | @cons e journal h he ih =>
    rcases List.suffix_cons_iff.mp hnow with rfl | hnow
    · exact .cons h he
    · exact ih hnow

theorem allowed {e : Event} (h : Orderly (later ++ e :: earlier)) : Allowed earlier e := by
  have hsuffix := h.suffix (List.suffix_append later (e :: earlier))
  cases hsuffix with
  | cons _ he => exact he

/-- Every module under evaluation has been read. -/
theorem stored_of_open (h : Orderly journal) {address : String} (hopen : address ∈ openModules journal) :
    .stored address ∈ journal := by
  induction h with
  | nil => cases hopen
  | @cons e journal h he ih =>
    refine List.mem_cons_of_mem _ ?_
    cases e with
    | entered a =>
      rcases List.mem_append.mp hopen with hopen | hopen
      · exact ih hopen
      · rw [List.mem_singleton.mp hopen]
        exact he.1
    | left a => exact ih (List.dropLast_subset _ hopen)
    | demanded a | consulted source a | stored a | valued a | blamed error a => exact ih hopen

/-- No module is under evaluation twice. -/
theorem nodup_open (h : Orderly journal) : (openModules journal).Nodup := by
  induction h with
  | nil => exact List.nodup_nil
  | @cons e journal h he ih =>
    cases e with
    | entered a =>
      refine List.nodup_append.mpr ⟨ih, List.nodup_singleton a, fun x hx y hy heq => ?_⟩
      obtain rfl := List.mem_singleton.mp hy
      exact he.2.2 (heq ▸ hx)
    | left a => exact ih.sublist (List.dropLast_sublist _)
    | demanded a | consulted source a | stored a | valued a | blamed error a => exact ih

/-- What a journal tells of a module that has a value is all that happens to it, but for demands. -/
theorem valued_once {address : String} (h : Orderly (later ++ .valued address :: earlier)) :
    .valued address ∉ later ∧ .entered address ∉ later := by
  refine ⟨fun hmem => ?_, fun hmem => ?_⟩
  · obtain ⟨front, back, rfl⟩ := List.append_of_mem hmem
    rw [List.append_assoc] at h
    exact h.allowed (by simp)
  · obtain ⟨front, back, rfl⟩ := List.append_of_mem hmem
    rw [List.append_assoc] at h
    exact h.allowed.2.1 (by simp)

/-- Nobody is consulted about a module that has been read. -/
theorem consulted_before {address : String} (h : Orderly (later ++ .stored address :: earlier))
    (source : Source) : .consulted source address ∉ later := by
  intro hmem
  obtain ⟨front, back, rfl⟩ := List.append_of_mem hmem
  rw [List.append_assoc] at h
  exact h.allowed (by simp)

theorem count_valued (h : Orderly journal) (address : String) : journal.count (.valued address) ≤ 1 := by
  induction h with
  | nil => simp
  | @cons e journal h he ih =>
    by_cases heq : e = .valued address
    · subst heq
      have hone : (.valued address :: journal).count (.valued address) = 1 := by
        rw [List.count_cons_self, List.count_eq_zero.mpr he]
      exact Nat.le_of_eq hone
    · rwa [List.count_cons_of_ne heq]

end Orderly

/-! ## Sessions and their journals -/

/-- An event that is written down and nothing else: a demand, a question or a blame. -/
def Silent : Event → Prop
  | .demanded _ | .consulted _ _ | .blamed _ _ => True
  | .stored _ | .entered _ | .left _ | .valued _ => False

/-- A session whose tables hold what its journal tells. -/
structure Recorded (s : Session) : Prop where
  orderly : Orderly s.journal
  evaluating : openModules s.journal = s.evaluating
  modules : ∀ address, .stored address ∈ s.journal ↔ (Table.find? s.modules address).isSome
  values : ∀ address, .valued address ∈ s.journal ↔ (Table.find? s.values address).isSome

theorem isSome_insert {α : Type} (t : Table α) (k : String) (v : α) (n : String) :
    (Table.find? (Table.insert t k v) n).isSome ↔ n = k ∨ (Table.find? t n).isSome := by
  rw [Table.find?_insert]
  split <;> simp [*]

namespace Recorded

variable {s : Session} {address : String}

theorem setLibrary (h : Recorded s) (l : Library) : Recorded (s.setLibrary l) :=
  ⟨h.orderly, h.evaluating, h.modules, h.values⟩

theorem setFailed (h : Recorded s) (failed : List String) : Recorded (s.setFailed failed) :=
  ⟨h.orderly, h.evaluating, h.modules, h.values⟩

theorem note (h : Recorded s) {e : Event} (hallowed : Allowed s.journal e) (he : Silent e) :
    Recorded (s.note e) := by
  refine ⟨.cons h.orderly hallowed, ?_, fun a => ?_, fun a => ?_⟩
  · cases e with
    | demanded a | consulted source a | blamed error a => exact h.evaluating
    | stored a | entered a | left a | valued a => cases he
  · refine (List.mem_cons.trans (or_iff_right ?_)).trans (h.modules a)
    rintro rfl
    exact he
  · refine (List.mem_cons.trans (or_iff_right ?_)).trans (h.values a)
    rintro rfl
    exact he

theorem demand (h : Recorded s) (address : String) : Recorded (s.note (.demanded address)) :=
  h.note trivial trivial

theorem blame (h : Recorded s) (e : SemanticError) (address : String) : Recorded (s.note (.blamed e address)) :=
  h.note trivial trivial

theorem consult (h : Recorded s) (hnew : Table.find? s.modules address = none) (source : Source) :
    Recorded (s.note (.consulted source address)) := by
  refine h.note ?_ trivial
  change Event.stored address ∉ s.journal
  rw [h.modules, hnew]
  simp

theorem store (h : Recorded s) {m : Module} (hnew : Table.find? s.modules m.address = none) :
    Recorded (s.store m) := by
  refine ⟨.cons h.orderly ?_, h.evaluating, fun a => ?_, fun a => ?_⟩
  · change Event.stored m.address ∉ s.journal
    rw [h.modules, hnew]
    simp
  · change _ ↔ (Table.find? (Table.insert s.modules m.address m) a).isSome
    rw [isSome_insert, ← h.modules a]
    simp [Session.store, Session.note]
  · simpa [Session.store, Session.note] using h.values a

theorem enter (h : Recorded s) (hread : (Table.find? s.modules address).isSome)
    (hvalue : Table.find? s.values address = none) (hnot : address ∉ s.evaluating) :
    Recorded (s.enter address) := by
  refine ⟨.cons h.orderly ⟨?_, ?_, ?_⟩, ?_, fun a => ?_, fun a => ?_⟩
  · exact (h.modules address).mpr hread
  · change Event.valued address ∉ s.journal
    rw [h.values, hvalue]
    simp
  · change address ∉ openModules s.journal
    rwa [h.evaluating]
  · exact congrArg (· ++ [address]) h.evaluating
  · simpa [Session.enter, Session.note] using h.modules a
  · simpa [Session.enter, Session.note] using h.values a

theorem leave (h : Recorded s) (address : String) : Recorded (s.leave address) := by
  refine ⟨.cons h.orderly trivial, congrArg List.dropLast h.evaluating, fun a => ?_, fun a => ?_⟩
  · simpa [Session.leave, Session.note] using h.modules a
  · simpa [Session.leave, Session.note] using h.values a

theorem setValue (h : Recorded s) (hvalue : Table.find? s.values address = none) (v : Value) :
    Recorded (s.setValue address v) := by
  refine ⟨.cons h.orderly ?_, h.evaluating, fun a => ?_, fun a => ?_⟩
  · change Event.valued address ∉ s.journal
    rw [h.values, hvalue]
    simp
  · simpa [Session.setValue, Session.note] using h.modules a
  · change _ ↔ (Table.find? (Table.insert s.values address v) a).isSome
    rw [isSome_insert, ← h.values a]
    simp [Session.setValue, Session.note]

/-- Reading a module is written down. -/
theorem parse {c : Config} {s' : Session} {o : Outcome Trouble Module} (h : Recorded s)
    (hparses : Parses c address s o s') : Recorded s' := by
  cases hparses with
  | known _ => exact h
  | unread hnew _ => exact (h.consult hnew _).setLibrary _
  | refused hnew _ =>
    have hlibrary := h.consult hnew .library
    have hreader := hlibrary.consult hnew .importReader
    exact (hreader.consult hnew .grammar).setLibrary _
  | stored hnew _ _ _ =>
    have hlibrary := h.consult hnew .library
    have hreader := hlibrary.consult hnew .importReader
    have hgrammar := hreader.consult hnew .grammar
    exact (hgrammar.setLibrary _).store hnew

end Recorded

/-! ## How journals go on -/

/-- Of what happened meanwhile, every demand has been met, and every module that was entered has a value. -/
structure Balanced (journal journal' : List Event) : Prop where
  demands : ∀ address, .demanded address ∈ journal' →
    .demanded address ∈ journal ∨ .valued address ∈ journal'
  entries : ∀ address, journal'.count (.entered address) + journal.count (.valued address) =
    journal.count (.entered address) + journal'.count (.valued address)

/-- How a session and its journal go on. What is under evaluation gets no value meanwhile. -/
structure Proceeds (s : Session) (o : Outcome Trouble Unit) (s' : Session) : Prop where
  journal : s.journal <:+ s'.journal
  evaluating : s'.evaluating = s.evaluating
  frozen : ∀ a ∈ s.evaluating, .valued a ∈ s'.journal → .valued a ∈ s.journal
  balanced : o = .ok () → Balanced s.journal s'.journal

theorem Balanced.refl (journal : List Event) : Balanced journal journal := ⟨fun _ h => .inl h, fun _ => rfl⟩

theorem Balanced.trans {journal journal' journal'' : List Event} (h : Balanced journal journal')
    (h' : Balanced journal' journal'') (hsuffix : journal' <:+ journal'') : Balanced journal journal'' := by
  refine ⟨fun a ha => ?_, fun a => ?_⟩
  · rcases h'.demands a ha with ha | ha
    · exact (h.demands a ha).imp id fun ha => hsuffix.subset ha
    · exact .inr ha
  · have hfirst := h.entries a
    have hsecond := h'.entries a
    omega

theorem Proceeds.trans {s s' s'' : Session} {o : Outcome Trouble Unit} (h : Proceeds s (.ok ()) s')
    (h' : Proceeds s' o s'') : Proceeds s o s'' where
  journal := h.journal.trans h'.journal
  evaluating := h'.evaluating.trans h.evaluating
  frozen a ha hvalued := h.frozen a ha (h'.frozen a (h.evaluating ▸ ha) hvalued)
  balanced ho := (h.balanced rfl).trans (h'.balanced ho) h'.journal

/-- Reading a module adds questions to the journal, and perhaps that it has been read. -/
theorem Parses.journal_eq {c : Config} {address : String} {s s' : Session} {o : Outcome Trouble Module}
    (h : Parses c address s o s') : ∃ new, s'.journal = new ++ s.journal ∧
      ∀ e ∈ new, e = .stored address ∨ ∃ source, e = .consulted source address := by
  cases h with
  | known _ => exact ⟨[], rfl, by simp⟩
  | unread _ _ => exact ⟨[.consulted .library address], rfl, by simp⟩
  | refused _ _ =>
    exact ⟨[.consulted .grammar address, .consulted .importReader address, .consulted .library address], rfl,
      by simp⟩
  | stored _ _ _ _ =>
    exact ⟨[.stored address, .consulted .grammar address, .consulted .importReader address,
      .consulted .library address], rfl, by simp⟩

/-- The journal when a module is entered, as far as demands, entries and values go. -/
theorem Parses.opened {c : Config} {address : String} {s s' : Session} {m : Module} {l : Library}
    (h : Parses c address (s.note (.demanded address)) (.ok m) s') :
    let journal := ((s'.setLibrary l).enter address).journal
    s.journal <:+ journal ∧ (∀ a, .valued a ∈ journal → .valued a ∈ s.journal) ∧
    (∀ a, .demanded a ∈ journal → a = address ∨ .demanded a ∈ s.journal) ∧
    (∀ a, journal.count (.valued a) = s.journal.count (.valued a)) ∧
    ∀ a, journal.count (.entered a) = s.journal.count (.entered a) + if a = address then 1 else 0 := by
  obtain ⟨new, hnew, hquestions⟩ := h.journal_eq
  have hjournal : ((s'.setLibrary l).enter address).journal =
      .entered address :: (new ++ .demanded address :: s.journal) := congrArg (Event.entered address :: ·) hnew
  have hnone {e : Event} (he : e ≠ .stored address ∧ ∀ source, e ≠ .consulted source address) : e ∉ new := by
    intro hmem
    rcases hquestions e hmem with heq | ⟨source, heq⟩
    · exact he.1 heq
    · exact he.2 source heq
  simp only [hjournal]
  refine ⟨?_, fun a ha => ?_, fun a ha => ?_, fun a => ?_, fun a => ?_⟩
  · exact (List.suffix_cons _ _).trans ((List.suffix_append new _).trans (List.suffix_cons _ _))
  · have hvalued := hnone (e := .valued a) ⟨nofun, nofun⟩
    simpa [hvalued] using ha
  · have hdemanded := hnone (e := .demanded a) ⟨nofun, nofun⟩
    simpa [hdemanded] using ha
  · have hvalued := List.count_eq_zero.mpr (hnone (e := .valued a) ⟨nofun, nofun⟩)
    simp [List.count_append, hvalued]
  · have hentered := List.count_eq_zero.mpr (hnone (e := .entered a) ⟨nofun, nofun⟩)
    have hrest : (new ++ .demanded address :: s.journal).count (.entered a) = s.journal.count (.entered a) := by
      simp [List.count_append, hentered]
    by_cases ha : a = address
    · subst ha
      rw [List.count_cons_self, hrest, if_pos rfl]
    · have hne : Event.entered address ≠ .entered a := fun h => ha (Event.entered.inj h).symm
      rw [List.count_cons_of_ne hne, hrest, if_neg ha, Nat.add_zero]

section Settling

variable {c : Config} {address : String} {m : Module} {s s' s₁ s₂ : Session} {l : Library}
  {o o' : Outcome Trouble Value}

/-- What winding up a module adds to the journal. -/
theorem Settles.journal_eq (h : Settles address s₁ o o' s₂) :
    (∃ v, o = .ok v ∧ s₂.journal = .valued address :: .left address :: s₁.journal) ∨
    o'.ending ≠ .ok () ∧ ∃ new, s₂.journal = new ++ s₁.journal ∧ ∀ a, .valued a ∉ new := by
  cases h with
  | valued v => exact .inl ⟨v, rfl, rfl⟩
  | blamed h =>
    refine .inr ⟨nofun, ?_⟩
    cases h with
    | told _ | untold _ => exact ⟨[.left address, .blamed _ _], rfl, by simp⟩
  | reported _ _ | accident _ | exhausted => exact .inr ⟨nofun, [.left address], rfl, by simp⟩

/-- A module under evaluation has no value before its evaluation is wound up. -/
theorem Recorded.unvalued (h : Recorded s) (hvalue : Table.find? s.values address = none)
    (hparses : Parses c address (s.note (.demanded address)) (.ok m) s')
    (hbody : Proceeds ((s'.setLibrary l).enter address) o.ending s₁) : .valued address ∉ s₁.journal := by
  intro hmem
  have hbefore := hbody.frozen address (List.mem_append_right _ (List.mem_singleton.mpr rfl)) hmem
  have hsome := (h.values address).mp (hparses.opened.2.1 address hbefore)
  rw [hvalue] at hsome
  cases hsome

theorem Recorded.settle (h : Recorded s₁) (hvalue : .valued address ∉ s₁.journal)
    (hsettles : Settles address s₁ o o' s₂) : Recorded s₂ := by
  cases hsettles with
  | valued v =>
    refine (h.leave address).setValue ?_ v
    rw [h.values] at hvalue
    exact Option.not_isSome_iff_eq_none.mp hvalue
  | blamed hblames =>
    refine Recorded.leave ?_ address
    cases hblames with
    | told _ => exact ((h.setFailed _).blame _ _).setLibrary _
    | untold _ => exact (h.setFailed _).blame _ _
  | reported _ failed => exact (h.setFailed failed).leave address
  | accident _ | exhausted => exact h.leave address

/-- The evaluation of a module, from the demand to the end. -/
theorem Settles.proceeds (hnot : address ∉ s.evaluating)
    (hparses : Parses c address (s.note (.demanded address)) (.ok m) s')
    (hbody : Proceeds ((s'.setLibrary l).enter address) o.ending s₁) (hsettles : Settles address s₁ o o' s₂) :
    Proceeds s o'.ending s₂ := by
  obtain ⟨hsuffix, hvalued, hdemanded, hcount, hcount'⟩ := hparses.opened (l := l)
  have hevaluating : ((s'.setLibrary l).enter address).evaluating = s.evaluating ++ [address] :=
    congrArg (· ++ [address]) hparses.evaluating_eq
  have hfrozen : ∀ a ∈ s.evaluating, .valued a ∈ s₁.journal → .valued a ∈ s.journal := by
    intro a ha hmem
    exact hvalued a (hbody.frozen a (hevaluating ▸ List.mem_append_left _ ha) hmem)
  have hback : s₂.evaluating = s.evaluating := by
    rw [hsettles.evaluating_eq, hbody.evaluating, hevaluating, List.dropLast_concat]
  rcases hsettles.journal_eq with ⟨v, rfl, hjournal⟩ | ⟨hfails, new, hjournal, hnew⟩
  · have hbalanced := hbody.balanced rfl
    refine ⟨?_, hback, fun a ha hmem => ?_, fun _ => ⟨fun a ha => ?_, fun a => ?_⟩⟩
    · rw [hjournal]
      exact (hsuffix.trans hbody.journal).trans ((List.suffix_cons _ _).trans (List.suffix_cons _ _))
    · have hne : a ≠ address := fun heq => hnot (heq ▸ ha)
      exact hfrozen a ha (by simpa [hjournal, hne] using hmem)
    · rw [hjournal] at ha ⊢
      rcases hbalanced.demands a (by simpa using ha) with ha | ha
      · rcases hdemanded a ha with rfl | ha
        · exact .inr (List.mem_cons_self ..)
        · exact .inl ha
      · exact .inr (List.mem_cons_of_mem _ (List.mem_cons_of_mem _ ha))
    · have hbody := hbalanced.entries a
      rw [hcount, hcount'] at hbody
      have hleft : s₂.journal.count (.entered a) = s₁.journal.count (.entered a) := by simp [hjournal]
      have hright : s₂.journal.count (.valued a) =
          s₁.journal.count (.valued a) + if a = address then 1 else 0 := by
        rw [hjournal]
        by_cases ha : a = address
        · subst ha
          rw [List.count_cons_self, if_pos rfl]
          simp
        · have hne : Event.valued address ≠ .valued a := fun h => ha (Event.valued.inj h).symm
          rw [List.count_cons_of_ne hne, if_neg ha]
          simp
      omega
  · refine ⟨?_, hback, fun a ha hmem => ?_, fun ho => absurd ho hfails⟩
    · rw [hjournal]
      exact (hsuffix.trans hbody.journal).trans (List.suffix_append _ _)
    · exact hfrozen a ha (by simpa [hjournal, hnew a] using hmem)

end Settling

def recorded (c : Config) : Manner c where
  inv := Recorded
  leads := Proceeds
  ask s address := address ∉ s.evaluating
  refl {s o} _ _ := ⟨List.suffix_refl _, rfl, fun _ _ => id, fun _ => .refl _⟩
  trans h h' := h.trans h'
  ask_of_not_mem _ := id
  known {s address v} hinv _ hvalue := by
    refine ⟨hinv.demand address, List.suffix_cons _ _, rfl, fun a _ ha => ?_,
      fun _ => ⟨fun a ha => ?_, fun a => ?_⟩⟩
    · simpa [Session.note] using ha
    · rcases List.mem_cons.mp ha with heq | ha
      · obtain rfl := Event.demanded.inj heq
        exact .inr (List.mem_cons_of_mem _ ((hinv.values a).mpr (by rw [hvalue]; rfl)))
      · exact .inl ha
    · simp [Session.note]
  unread {s address o s'} hinv _ _ hparses ho failed := by
    obtain ⟨new, hnew, hquestions⟩ := hparses.journal_eq
    refine ⟨((hinv.demand address).parse hparses).setFailed failed, ?_, hparses.evaluating_eq, fun a _ ha => ?_,
      fun hok => ?_⟩
    · change s.journal <:+ s'.journal
      rw [hnew]
      exact (List.suffix_cons _ _).trans (List.suffix_append _ _)
    · change .valued a ∈ s'.journal at ha
      rw [hnew] at ha
      rcases List.mem_append.mp ha with ha | ha
      · rcases hquestions _ ha with heq | ⟨source, heq⟩ <;> cases heq
      · simpa [Session.note] using ha
    · cases o with
      | ok m => exact absurd rfl (ho m)
      | error e | exhausted => cases hok
  opens {s address m s' l} hinv hask hvalue hparses _ := by
    have hread : (Table.find? s'.modules address).isSome := by
      rw [hparses.find?_modules]
      rfl
    refine (((hinv.demand address).parse hparses).setLibrary l).enter hread ?_ ?_
    · change Table.find? s'.values address = none
      rw [hparses.values_eq]
      exact hvalue
    · change address ∉ s'.evaluating
      rw [hparses.evaluating_eq]
      exact hask
  settles hinv hask hvalue hparses _ hinv' hbody hsettles :=
    ⟨hinv'.settle (hinv.unvalued hvalue hparses hbody) hsettles, hsettles.proceeds hask hparses hbody⟩
  blames {s s' e address t s''} _ hinv' hleads hblames := by
    have hjournal : s''.journal = .blamed e (culprit e address) :: s'.journal := by cases hblames <;> rfl
    refine ⟨?_, ?_, hblames.evaluating_eq.trans hleads.evaluating, fun a ha hmem => ?_, nofun⟩
    · cases hblames with
      | told _ => exact (hinv'.blame _ _).setLibrary _
      | untold _ => exact hinv'.blame _ _
    · rw [hjournal]
      exact hleads.journal.trans (List.suffix_cons _ _)
    · exact hleads.frozen a ha (by simpa [hjournal] using hmem)

/-! ## Runs -/

theorem recorded_lasts (c : Config) : (recorded c).conduct.Lasts where
  ask _ _ hnone := by
    change _ ∉ _
    rw [hnone]
    exact List.not_mem_nil
  evaluating hleads := hleads.2.evaluating
  change _ hinv := ⟨hinv.setLibrary _, .refl _, List.suffix_refl _, rfl, fun _ _ => id, fun _ => .refl _⟩

theorem recorded_start (library : Library) : Recorded (Session.start library) :=
  ⟨.nil, rfl, by simp [Session.start, Table.find?], by simp [Session.start, Table.find?]⟩

/-- Modules under evaluation are not more than there are modules. -/
theorem Recorded.length_evaluating {s : Session} (h : Recorded s) : s.evaluating.length ≤ s.modules.length := by
  have hnodup : s.evaluating.Nodup := h.evaluating ▸ h.orderly.nodup_open
  have hsubset : s.evaluating ⊆ s.modules.map Prod.fst := by
    intro a ha
    rw [← h.evaluating] at ha
    obtain ⟨m, hm⟩ := Option.isSome_iff_exists.mp ((h.modules a).mp (h.orderly.stored_of_open ha))
    exact List.mem_map_of_mem (Table.mem_of_find? hm)
  have hlength := (hnodup.subperm hsubset).length_le
  rwa [List.length_map] at hlength

/-- A value that a module has is never replaced. -/
theorem serve_gains (c : Config) (qs : List Request) (h : EngineState) :
    Table.Gains h.rest.outer.values (serve c byNeed qs h).2.rest.outer.values := by
  induction qs generalizing h with
  | nil => exact .refl _
  | cons q qs ih =>
    refine Table.Gains.trans ?_ (ih _)
    cases q with
    | evaluate address => exact (evaluate_keeps c h address).2.values
    | render address => exact (render_keeps c h address).2.values
    | change world => exact .refl _

/-- Each module at most once. In every run, at every moment that the journal tells of:
no module is under evaluation twice, and only modules that have been read are, so that evaluations nest no
deeper than there are modules; a module that has a value keeps it and is not entered again; nobody is
consulted about a module that has been read. If nothing failed, every module that was demanded has been
entered exactly once. -/
theorem modules_run_once (c : Config) (library : Library) (requests : List Request) :
    let run := serve c byNeed requests (.start library)
    let journal := run.2.rest.outer.journal
    (∀ now, now <:+ journal → (openModules now).Nodup ∧ ∀ a ∈ openModules now, .stored a ∈ now) ∧
    (∀ e scope h, Visited c library requests e scope h →
      h.rest.outer.evaluating = openModules h.rest.outer.journal ∧ h.rest.outer.evaluating.Nodup ∧
      h.rest.outer.evaluating.length ≤ h.rest.outer.modules.length) ∧
    (∀ a, .valued a ∈ journal ↔ (Table.find? run.2.rest.outer.values a).isSome) ∧
    (∀ a later earlier, journal = later ++ .valued a :: earlier → .valued a ∉ later ∧ .entered a ∉ later) ∧
    (∀ more, Table.Gains run.2.rest.outer.values (serve c byNeed more run.2).2.rest.outer.values) ∧
    (∀ a, .stored a ∈ journal ↔ (Table.find? run.2.rest.outer.modules a).isSome) ∧
    (∀ a later earlier, journal = later ++ .stored a :: earlier →
      ∀ source, .consulted source a ∉ later) ∧
    ((∀ o ∈ run.1, o = .ok ()) → ∀ a, .demanded a ∈ journal → journal.count (.entered a) = 1) := by
  intro run journal
  obtain ⟨-, ⟨hrecorded, -⟩, hleads⟩ := Conduct.serve_keeps (recorded_lasts c) Conduct.byNeed_walks requests
    (h := .start library) ⟨recorded_start library, rfl⟩
  have hfinal : Recorded run.2.rest.outer := hrecorded
  refine ⟨fun now hnow => ?_, fun e scope h hvisited => ?_, hfinal.values, fun a later earlier heq => ?_,
    fun more => serve_gains c more run.2, hfinal.modules, fun a later earlier heq => ?_, fun hok a ha => ?_⟩
  · have horderly := hfinal.orderly.suffix hnow
    exact ⟨horderly.nodup_open, fun a ha => horderly.stored_of_open ha⟩
  · obtain ⟨hinv, -⟩ := Conduct.visit_of_visited (recorded_lasts c) (recorded_start library) hvisited
    have hvisit : Recorded h.rest.outer := hinv
    exact ⟨hvisit.evaluating.symm, hvisit.evaluating ▸ hvisit.orderly.nodup_open, hvisit.length_evaluating⟩
  · exact (heq ▸ hfinal.orderly : Orderly (later ++ .valued a :: earlier)).valued_once
  · exact (heq ▸ hfinal.orderly : Orderly (later ++ .stored a :: earlier)).consulted_before
  · have hbalanced : Balanced [] journal := (hleads hok).2.balanced rfl
    have hvalued : .valued a ∈ journal := (hbalanced.demands a ha).resolve_left List.not_mem_nil
    have hentries := hbalanced.entries a
    have honce : journal.count (.valued a) ≤ 1 := hfinal.orderly.count_valued a
    have hsome := List.count_pos_iff.mpr hvalued
    simp only [List.count_nil] at hentries
    omega

end LazyModules.Engine
