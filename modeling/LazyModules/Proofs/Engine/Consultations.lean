import LazyModules.Proofs.Discipline.Session
import LazyModules.Proofs.Engine.Requests
import LazyModules.Proofs.Library.Runs

/-!
# What the journal tells of the library

A session notes that the library is consulted whenever it asks for a text, and at no other time. So a library can be
replayed: the one at the end of a computation holds what the questions in the journal, asked again in the same order, make
of the one at the start. Reports have no part in it.

**Results.**
* `Library.getOrLoad_alike`: what a question does to the texts and to the world depends on nothing else.
* `consulting`, `answer_consults`: the library after an answer is the replay of what the journal has gained.
* `touched_was_consulted`: in every run, the library was consulted for whatever has been loaded or fetched in it.
-/
namespace LazyModules

namespace Library

/-- A question has the same effect on libraries that are alike. -/
theorem getOrLoad_alike {l l' : Library} (h : Alike l l') (address : String) :
    Alike (getOrLoad address l).2 (getOrLoad address l').2 := by
  obtain ⟨_, report, _⟩ := l
  obtain ⟨cache, report', world⟩ := l'
  obtain ⟨rfl, rfl⟩ := h
  simp only [getOrLoad, getCache, bind, Computation.bind]
  cases Table.find? cache.loaded address with
  | some d => exact ⟨rfl, rfl⟩
  | none =>
    simp only [find, getCache, bind, Computation.bind]
    cases Table.find? cache.persisted (Text.pointsOf address) with
    | some d => exact ⟨rfl, rfl⟩
    | none =>
      cases Address.isRemote address with
      | true =>
        simp only [if_true, Computation.bind, fetch_eq]
        cases (world.fetch address).1 <;> exact ⟨rfl, rfl⟩
      | false =>
        simp only [Bool.false_eq_true, if_false, Computation.bind, readFile_eq]
        cases world.disk.readText address <;> exact ⟨rfl, rfl⟩

/-- The text at an address has been loaded, or the network has been asked for it. -/
def Touched (l : Library) (address : String) : Prop :=
  (Table.find? l.cache.loaded address).isSome ∨ address ∈ l.world.fetched

theorem Alike.touched {l l' : Library} (h : Alike l l') {address : String} (ha : l'.Touched address) :
    l.Touched address := by
  rwa [Touched, h.cache, h.world] at ha

/-- A question touches nothing but what it is about. -/
theorem touched_getOrLoad {l : Library} {address a : String} (ha : (getOrLoad address l).2.Touched a) :
    l.Touched a ∨ a = address := by
  have hinsert {d : Document} (h : (Table.find? (Table.insert l.cache.loaded address d) a).isSome) :
      l.Touched a ∨ a = address := by
    rw [Table.find?_insert] at h
    split at h
    · exact .inr ‹_›
    · exact .inl (.inl h)
  have hfetch (h : a ∈ (l.world.fetch address).2.fetched) : l.Touched a ∨ a = address := by
    rcases List.mem_append.mp h with h | h
    · exact .inl (.inr h)
    · exact .inr (List.mem_singleton.mp h)
  have hgets := getOrLoad_gets address l
  generalize getOrLoad address l = r at ha hgets
  cases hgets with
  | loaded => exact .inl ha
  | persisted | read => exact ha.elim hinsert fun h => .inl (.inr h)
  | fetched => exact ha.elim hinsert hfetch
  | unreachable => exact ha.elim (fun h => .inl (.inl h)) hfetch
  | unreadable => exact .inl ha

end Library

namespace Engine

/-! ## Replays -/

/-- The library that the questions of a journal make of a library. The journal has the latest first. -/
def replay : List Event → Library → Library
  | [], l => l
  | .consulted .library address :: journal, l => (Library.getOrLoad address (replay journal l)).2
  | _ :: journal, l => replay journal l

theorem replay_append (later earlier : List Event) (l : Library) :
    replay (later ++ earlier) l = replay later (replay earlier l) := by
  induction later with
  | nil => rfl
  | cons e later ih =>
    cases e with
    | consulted source a => cases source <;> simp only [List.cons_append, replay, ih]
    | demanded a | stored a | entered a | left a | valued a | blamed error a =>
      simp only [List.cons_append, replay, ih]

theorem replay_quiet {new : List Event} (hnew : ∀ source a, .consulted source a ∉ new) (l : Library) :
    replay new l = l := by
  fun_induction replay new l with
  | case1 => rfl
  | case2 address journal l ih => exact absurd (List.mem_cons_self ..) (hnew .library address)
  | case3 e journal l he ih => exact ih fun source a ha => hnew source a (List.mem_cons_of_mem _ ha)

theorem replay_alike (journal : List Event) {l l' : Library} (h : l.Alike l') :
    (replay journal l).Alike (replay journal l') := by
  fun_induction replay journal l with
  | case1 => exact h
  | case2 address journal l ih => exact Library.getOrLoad_alike (ih h) address
  | case3 e journal l he ih =>
    rw [replay]
    · exact ih h
    · exact he

/-- What a replay touches was touched before, or is asked for in the journal. -/
theorem touched_replay {journal : List Event} {l : Library} {a : String} (ha : (replay journal l).Touched a) :
    l.Touched a ∨ .consulted .library a ∈ journal := by
  fun_induction replay journal l with
  | case1 => exact .inl ha
  | case2 address journal l ih =>
    rcases Library.touched_getOrLoad ha with ha | rfl
    · exact (ih ha).imp_right (List.mem_cons_of_mem _)
    · exact .inr (List.mem_cons_self ..)
  | case3 e journal l he ih => exact (ih ha).imp_right (List.mem_cons_of_mem _)

/-! ## Sessions -/

/-- The library of the second session is the replay of what the journal has gained since the first one. -/
def Consults (s s' : Session) : Prop :=
  ∃ new, s'.journal = new ++ s.journal ∧ (replay new s.library).Alike s'.library

namespace Consults

variable {s s' s'' : Session}

theorem refl (s : Session) : Consults s s := ⟨[], rfl, .refl _⟩

theorem trans (h : Consults s s') (h' : Consults s' s'') : Consults s s'' := by
  obtain ⟨new, hnew, halike⟩ := h
  obtain ⟨new', hnew', halike'⟩ := h'
  refine ⟨new' ++ new, by rw [hnew', hnew, List.append_assoc], ?_⟩
  rw [replay_append]
  exact (replay_alike new' halike).trans halike'

/-- A step that asks for nothing. -/
theorem of_quiet (hquiet : ∃ new, s'.journal = new ++ s.journal ∧ ∀ source a, .consulted source a ∉ new)
    (halike : s.library.Alike s'.library) : Consults s s' := by
  obtain ⟨new, hjournal, hnew⟩ := hquiet
  exact ⟨new, hjournal, by rwa [replay_quiet hnew]⟩

theorem journal (h : Consults s s') : s.journal <:+ s'.journal := by
  obtain ⟨new, hnew, -⟩ := h
  exact ⟨new, hnew.symm⟩

/-- What has been touched in between has been asked for. -/
theorem touched (h : Consults s s') {a : String} (ha : s'.library.Touched a) :
    s.library.Touched a ∨ .consulted .library a ∈ s'.journal := by
  obtain ⟨new, hnew, halike⟩ := h
  rw [hnew]
  exact (touched_replay (halike.touched ha)).imp_right (List.mem_append_left _)

theorem demanded (s : Session) (address : String) : Consults s (s.note (.demanded address)) :=
  of_quiet ⟨[.demanded address], rfl, by simp⟩ (.refl _)

end Consults

variable {c : Config} {address : String} {s s' : Session}

theorem Parses.consults {o : Outcome Trouble Module} (h : Parses c address s o s') : Consults s s' := by
  cases h with
  | known _ => exact .refl s
  | unread _ _ => exact ⟨[.consulted .library address], rfl, .refl _⟩
  | refused _ hl =>
    exact ⟨[.consulted .grammar address, .consulted .importReader address, .consulted .library address], rfl,
      hl.toAlike⟩
  | stored _ _ _ _ =>
    exact ⟨[.stored address, .consulted .grammar address, .consulted .importReader address,
      .consulted .library address], rfl, .refl _⟩

theorem Blames.consults {e : SemanticError} {t : Trouble} (h : Blames e address s t s') : Consults s s' :=
  .of_quiet h.quiet h.alike

theorem Settles.consults {o o' : Outcome Trouble Value} (h : Settles address s o o' s') : Consults s s' :=
  .of_quiet h.quiet h.alike

/-- The engine asks the library for what the journal tells. -/
def consulting (c : Config) : Manner c where
  inv _ := True
  leads s _ s' := Consults s s'
  ask _ _ := True
  refl _ _ := .refl _
  trans := .trans
  ask_of_not_mem _ _ := trivial
  known _ _ _ := ⟨trivial, .demanded _ _⟩
  unread _ _ _ hparses _ _ := ⟨trivial, (Consults.demanded _ _).trans hparses.consults⟩
  opens _ _ _ _ _ := trivial
  settles {s address m s' l _ _ _ _} _ _ _ hparses hl _ hbody hsettles := by
    have hopened : Consults s' ((s'.setLibrary l).enter address) :=
      .of_quiet ⟨[.entered address], rfl, by simp⟩ hl.toAlike
    have hread := (Consults.demanded s address).trans hparses.consults
    exact ⟨trivial, ((hread.trans hopened).trans hbody).trans hsettles.consults⟩
  blames _ _ hleads hblames := ⟨trivial, hleads.trans hblames.consults⟩

/-! ## Runs -/

section Runs

variable {h : EngineState} {a : String}

/-- The library after an answer is the replay of what the journal has gained, unless the world has changed. -/
theorem answer_consults (c : Config) (h : EngineState) (q : Request) :
    (∃ world, q = .change world) ∨ Consults h.rest.outer (answer c byNeed h q).2.rest.outer := by
  have hwalks : (consulting c).conduct.Walks byNeed byNeed := Conduct.byNeed_walks
  cases q with
  | evaluate address =>
    exact .inr (Conduct.evaluateBy_keeps hwalks (fun _ => trivial) trivial).2.leads.2
  | render address =>
    exact .inr (Conduct.renderBy_keeps hwalks (fun _ => trivial) trivial).2.leads.2
  | change world => exact .inl ⟨world, rfl⟩

theorem answer_journal (c : Config) (h : EngineState) (q : Request) :
    h.rest.outer.journal <:+ (answer c byNeed h q).2.rest.outer.journal := by
  rcases answer_consults c h q with ⟨world, rfl⟩ | hconsults
  · exact List.suffix_refl _
  · exact hconsults.journal

theorem serve_journal (c : Config) (qs : List Request) (h : EngineState) :
    h.rest.outer.journal <:+ (serve c byNeed qs h).2.rest.outer.journal := by
  induction qs generalizing h with
  | nil => exact List.suffix_refl _
  | cons q qs ih => exact (answer_journal c h q).trans (ih _)

/-- In every run, the library was consulted for whatever has been loaded or fetched, unless that was so before the run or
in a world that has come up since. -/
theorem touched_was_consulted {c : Config} {qs : List Request}
    (ha : (serve c byNeed qs h).2.rest.outer.library.Touched a) :
    h.rest.outer.library.Touched a ∨ (∃ world, .change world ∈ qs ∧ a ∈ world.fetched) ∨
      .consulted .library a ∈ (serve c byNeed qs h).2.rest.outer.journal := by
  induction qs generalizing h with
  | nil => exact .inl ha
  | cons q qs ih =>
    rcases ih ha with hnext | ⟨world, hworld, hfetched⟩ | hconsulted
    · rcases answer_consults c h q with ⟨world, rfl⟩ | hconsults
      · exact hnext.imp .inl fun hfetched => .inl ⟨world, List.mem_cons_self .., hfetched⟩
      · exact (hconsults.touched hnext).imp_right fun hconsulted =>
          .inr ((serve_journal c qs _).subset hconsulted)
    · exact .inr (.inl ⟨world, List.mem_cons_of_mem _ hworld, hfetched⟩)
    · exact .inr (.inr hconsulted)

end Runs

end Engine

end LazyModules
