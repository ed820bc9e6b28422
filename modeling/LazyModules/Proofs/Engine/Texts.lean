import LazyModules.Proofs.Engine.Steps
import LazyModules.Proofs.Library.Offers

/-!
# What a text says

Whether a text is accepted, and which module it holds, depends on the text and its address alone. So a text that was
refused is refused again, and the module that is kept for an address is the one that the text there says.

**Results.** `parse_reads`: the ways in which the reading of a module can go, each with what it depends on.
-/
namespace LazyModules

/-- The module that a reading has accepted, to the end of the text. -/
def Reading.said? (r : Reading) : Option ModuleSyntax :=
  match r.verdict with
  | .accepted m => if r.rest.isEmpty then some m else none
  | _ => none

namespace Engine

/-- The addresses that imports lead to, if all of them lead somewhere. -/
def resolve? (address : String) : List Import → Option (List (String × String))
  | [] => some []
  | i :: is =>
    match Address.resolve address i.specifier with
    | .ok target => (resolve? address is).map fun found => (i.name, target) :: found
    | .error _ => none

/-- The module that a text at an address says. -/
def moduleOf (c : Config) (address text : String) : Option Module :=
  (c.read text).said?.bind fun said =>
    (resolve? address ((Imports.read text).getD [])).map fun imports =>
      ⟨address, imports, said.declarations, said.body⟩

theorem address_of_moduleOf {c : Config} {address text : String} {m : Module}
    (h : moduleOf c address text = some m) : m.address = address := by
  obtain ⟨said, -, h⟩ := Option.bind_eq_some_iff.mp h
  obtain ⟨imports, -, rfl⟩ := Option.map_eq_some_iff.mp h
  rfl

/-- How the reading of the module at an address can go, what that depends on, and what it leaves of a session. -/
inductive Reads (c : Config) (address : String) (s : Session) : Outcome Trouble Module → Session → Prop where
  /-- it has been read before -/
  | known {m : Module} (h : Table.find? s.modules address = some m) : Reads c address s (.ok m) s
  /-- there is no text -/
  | unread (hnew : Table.find? s.modules address = none) {o : Outcome Trouble Module}
      (ho : o = .exhausted ∨ ∃ a, o = .error (.accident a))
      (hoffer : ∀ points, s.library.offer address ≠ .ok (.text points)) :
      Reads c address s o ((s.note (.consulted .library address)).setLibrary (asked address s))
  /-- the text, or an import in it, is refused -/
  | refused (hnew : Table.find? s.modules address = none) {points : List Text.Point}
      (hoffer : s.library.offer address = .ok (.text points))
      (hmodule : moduleOf c address (Text.legible points) = none) (r : Report) :
      Reads c address s (.error (.reported .parse))
        ((s.consultAll address).setLibrary { asked address s with report := r })
  | stored (hnew : Table.find? s.modules address = none) {points : List Text.Point}
      (hoffer : s.library.offer address = .ok (.text points)) {m : Module}
      (hmodule : moduleOf c address (Text.legible points) = some m) :
      Reads c address s (.ok m) (((s.consultAll address).setLibrary (asked address s)).store m)

section Leaves

variable (h : EngineState)

theorem understand_of_said {c : Config} {address text : String} {said : ModuleSyntax}
    (hsaid : (c.read text).said? = some said) : understand c address text h = (.ok said, h) := by
  simp only [Reading.said?] at hsaid
  cases hread : (c.read text).verdict with
  | broken f => simp [hread] at hsaid
  | refused => simp [hread] at hsaid
  | accepted m =>
    simp only [hread, Option.ite_none_right_eq_some, Option.some.injEq] at hsaid
    obtain ⟨hrest, rfl⟩ := hsaid
    simp only [understand, hread, hrest, if_true]
    rfl

theorem understand_of_not_said {c : Config} {text : String} (hsaid : (c.read text).said? = none) (address : String) :
    ∃ r, understand c address text h = (.error (.reported .parse),
      Heap.setOuter h (h.rest.outer.setReport r)) := by
  rcases understand_cases h c address text with ⟨said, hverdict, heq⟩ | ⟨r, -, heq⟩
  · simp only [Reading.said?, hverdict] at hsaid
    split at hsaid
    · cases hsaid
    · rename_i hrest
      simp only [understand, hverdict, hrest, Bool.false_eq_true, if_false]
      exact ⟨_, giveUp_eq h _ _⟩
  · exact ⟨r, heq⟩

theorem resolveImports_of_some {address : String} {is : List Import} {found : List (String × String)}
    (hfound : resolve? address is = some found) : resolveImports address is h = (.ok found, h) := by
  induction is generalizing found with
  | nil =>
    obtain rfl := Option.some.inj hfound
    rfl
  | cons i is ih =>
    simp only [resolve?] at hfound
    split at hfound
    · rename_i target htarget
      obtain ⟨rest, hrest, rfl⟩ := Option.map_eq_some_iff.mp hfound
      simp only [resolveImports, htarget, bind, Computation.bind, ih hrest]
      rfl
    · cases hfound

theorem resolveImports_of_none {address : String} {is : List Import} (hnone : resolve? address is = none) :
    ∃ r, resolveImports address is h = (.error (.reported .parse),
      Heap.setOuter h (h.rest.outer.setReport r)) := by
  induction is with
  | nil => cases hnone
  | cons i is ih =>
    simp only [resolve?] at hnone
    split at hnone
    · rename_i target htarget
      obtain ⟨r, hr⟩ := ih (Option.map_eq_none_iff.mp hnone)
      simp only [resolveImports, htarget, bind, Computation.bind, hr]
      exact ⟨r, rfl⟩
    · rename_i f hf
      simp only [resolveImports, hf]
      exact ⟨_, giveUp_eq h _ _⟩

end Leaves

theorem readModule_bind (c : Config) (address text : String) (h : EngineState) :
    readModule c address text h = (do
      let said ← understand c address text
      let imports ← resolveImports address ((Imports.read text).getD [])
      modify (·.store ⟨address, imports, said.declarations, said.body⟩)
      return ⟨address, imports, said.declarations, said.body⟩ : Action Module)
        (Heap.setOuter h (h.rest.outer.consultReaders address)) := rfl

theorem readModule_of_some {c : Config} {address text : String} {m : Module}
    (hmodule : moduleOf c address text = some m) (h : EngineState) :
    readModule c address text h = (.ok m, Heap.setOuter h ((h.rest.outer.consultReaders address).store m)) := by
  obtain ⟨said, hsaid, hmodule⟩ := Option.bind_eq_some_iff.mp hmodule
  obtain ⟨imports, himports, rfl⟩ := Option.map_eq_some_iff.mp hmodule
  simp only [readModule_bind, bind, Computation.bind, understand_of_said _ hsaid,
    resolveImports_of_some _ himports]
  rfl

theorem readModule_of_none {c : Config} {address text : String} (hmodule : moduleOf c address text = none)
    (h : EngineState) : ∃ r, readModule c address text h = (.error (.reported .parse),
      Heap.setOuter h ((h.rest.outer.consultReaders address).setReport r)) := by
  simp only [readModule_bind, bind, Computation.bind]
  let h' := Heap.setOuter h (h.rest.outer.consultReaders address)
  cases hsaid : (c.read text).said? with
  | none =>
    obtain ⟨r, hr⟩ := understand_of_not_said h' hsaid address
    rw [hr]
    exact ⟨r, rfl⟩
  | some said =>
    rw [moduleOf, hsaid, Option.bind_some, Option.map_eq_none_iff] at hmodule
    obtain ⟨r, hr⟩ := resolveImports_of_none h' hmodule
    simp only [understand_of_said _ hsaid]
    rw [hr]
    exact ⟨r, rfl⟩

/-- What the reading of a module depends on, and what it does to a session. -/
theorem parse_reads (c : Config) (address : String) (h : EngineState) :
    ∃ s, (parse c address h).2 = Heap.setOuter h s ∧ Reads c address h.rest.outer (parse c address h).1 s := by
  cases hnew : Table.find? h.rest.outer.modules address with
  | some m =>
    simp only [parse, session, bind, Computation.bind, hnew]
    exact ⟨h.rest.outer, rfl, .known hnew⟩
  | none =>
    simp only [parse, session, hnew, bind, Computation.bind, note, modify, withLibrary_eq, Session.note]
    have hoffer : h.rest.outer.library.offer address = (Library.getOrLoad address h.rest.outer.library).1 := rfl
    let s := (h.rest.outer.note (.consulted .library address)).setLibrary (asked address h.rest.outer)
    cases ho : (Library.getOrLoad address h.rest.outer.library).1 with
    | error e => exact ⟨s, rfl, .unread hnew (.inr ⟨_, rfl⟩) (by rw [hoffer, ho]; simp)⟩
    | exhausted => exact ⟨s, rfl, .unread hnew (.inl rfl) (by rw [hoffer, ho]; simp)⟩
    | ok d =>
      cases d with
      | text points =>
        change ∃ s', (readModule c address (Text.legible points) (Heap.setOuter h s)).2 = _ ∧
          Reads c address _ (readModule c address (Text.legible points) (Heap.setOuter h s)).1 s'
        rw [ho] at hoffer
        cases hmodule : moduleOf c address (Text.legible points) with
        | some m =>
          rw [readModule_of_some hmodule]
          exact ⟨_, rfl, .stored hnew hoffer hmodule⟩
        | none =>
          obtain ⟨r, hr⟩ := readModule_of_none hmodule (Heap.setOuter h s)
          rw [hr]
          exact ⟨_, rfl, .refused hnew hoffer hmodule r⟩
      | null | bool _ | int _ | float _ | array _ | object _ =>
        exact ⟨s, rfl, .unread hnew (.inr ⟨_, rfl⟩) (by rw [hoffer, ho]; simp)⟩

theorem parse_of_known {c : Config} {address : String} {h : EngineState} {m : Module}
    (hm : Table.find? h.rest.outer.modules address = some m) : parse c address h = (.ok m, h) := by
  simp only [parse, session, bind, Computation.bind, hm]
  rfl

/-- A text that says a module is read, and the module is kept. -/
theorem parse_of_new {c : Config} {address : String} {h : EngineState} {points : List Text.Point} {m : Module}
    (hnew : Table.find? h.rest.outer.modules address = none)
    (hoffer : h.rest.outer.library.offer address = .ok (.text points))
    (hmodule : moduleOf c address (Text.legible points) = some m) :
    parse c address h = (.ok m, Heap.setOuter h
      (((h.rest.outer.consultAll address).setLibrary (asked address h.rest.outer)).store m)) := by
  obtain ⟨s, hs, hreads⟩ := parse_reads c address h
  rcases hparse : parse c address h with ⟨o, h'⟩
  rw [hparse] at hs hreads
  obtain rfl : h' = Heap.setOuter h s := hs
  cases hreads with
  | known h => exact absurd (h.symm.trans hnew) (by simp)
  | unread _ _ hunread => exact absurd hoffer (hunread points)
  | refused _ hoffer' hnone =>
    obtain rfl := Document.text.inj (Outcome.ok.inj (hoffer'.symm.trans hoffer))
    exact absurd (hnone.symm.trans hmodule) (by simp)
  | stored _ hoffer' hmodule' =>
    obtain rfl := Document.text.inj (Outcome.ok.inj (hoffer'.symm.trans hoffer))
    obtain rfl := Option.some.inj (hmodule'.symm.trans hmodule)
    rfl

end Engine

end LazyModules
