import Mathlib.Data.List.Forall2
import LazyModules.Engine
import LazyModules.Proofs.Table

/-!
# What the engine does to a session

Every change that the engine makes to a session, said once and for all. Reading a module asks the library
for its text, reads that, resolves the imports, and keeps the module at the very end. Evaluating one puts it
on top of those under evaluation, and when its body has come to an end takes it away and keeps the value or
reports the error.

**Results.**
* `Library.getOrLoad_loads`: no text that was loaded is lost, and a text that cannot be had changes nothing.
* `parse_parses`: the ways in which the reading of a module can go.
* `blame_blames`: an error is written down, and reported if that is possible.
* `evaluateModule_eq`, `windUp_settles`: how a module is evaluated, and how that is wound up.
-/
namespace LazyModules

def Heap.setOuter {σ : Type} (m : Heap σ) (s : σ) : Heap σ := { m with rest := { m.rest with outer := s } }

@[simp] theorem Heap.outer_setOuter {σ : Type} (m : Heap σ) (s : σ) : (Heap.setOuter m s).rest.outer = s := rfl

/-! ## Reports -/

namespace Report

@[simp] theorem kinds_print (r : Report) (line : String) : (r.print line).kinds = r.kinds := rfl

@[simp] theorem kinds_info (r : Report) (words : List String) : (r.info words).kinds = r.kinds := by
  unfold info
  split <;> rfl

@[simp] theorem kinds_attach (r : Report) (sources : Table String) : (r.attach sources).kinds = r.kinds := rfl

/-- A diagnostic more. -/
def Told (r r' : Report) : Prop := ∃ kind, r'.kinds = r.kinds ++ [kind]

theorem told_emit (r : Report) (d : Diagnostic) : Told r (r.emit d) := ⟨d.kind, rfl⟩

/-- Blame tells one problem, if it can tell it at all. -/
theorem told_blame {r r' : Report} {c : SemanticCause} {address : String} (h : r.blame c address = .ok r') :
    Told r r' := by
  cases c with
  | undefinedName name available | grievance message extra | complaint c | cyclicImport importer name cycle =>
    obtain rfl := Except.ok.inj h
    exact told_emit _ _
  | unclassified message => cases h
  | circular name =>
    simp only [blame] at h
    split at h
    all_goals
      obtain rfl := Except.ok.inj h
      exact told_emit _ _

end Report

/-! ## The library -/

namespace Library

variable {α β : Type}

/-- The second library has all the texts of the first one, and so many diagnostics more. -/
structure Grows (n : Nat) (l l' : Library) : Prop where
  loaded : Table.Gains l.cache.loaded l'.cache.loaded
  kinds : ∃ kinds, l'.report.kinds = l.report.kinds ++ kinds ∧ kinds.length = n

theorem Grows.refl (l : Library) : Grows 0 l l := ⟨.refl _, [], (List.append_nil _).symm, rfl⟩

theorem Grows.trans {n k : Nat} {l l' l'' : Library} (h : Grows n l l') (h' : Grows k l' l'') :
    Grows (n + k) l l'' := by
  obtain ⟨some, hsome, hn⟩ := h.kinds
  obtain ⟨more, hmore, hk⟩ := h'.kinds
  refine ⟨h.loaded.trans h'.loaded, some ++ more, ?_, ?_⟩
  · rw [hmore, hsome, List.append_assoc]
  · rw [List.length_append, hn, hk]

/-- Libraries that hold the same texts and face the same world. -/
structure Alike (l l' : Library) : Prop where
  cache : l'.cache = l.cache
  world : l'.world = l.world

theorem Alike.refl (l : Library) : Alike l l := ⟨rfl, rfl⟩

theorem Alike.trans {l l' l'' : Library} (h : Alike l l') (h' : Alike l' l'') : Alike l l'' :=
  ⟨h'.cache.trans h.cache, h'.world.trans h.world⟩

/-- The second library is like the first one, with so many diagnostics more. -/
structure Tells (n : Nat) (l l' : Library) : Prop extends Alike l l' where
  kinds : ∃ kinds, l'.report.kinds = l.report.kinds ++ kinds ∧ kinds.length = n

theorem Tells.grows {n : Nat} {l l' : Library} (h : Tells n l l') : Grows n l l' := by
  refine ⟨?_, h.kinds⟩
  rw [h.cache]
  exact .refl _

theorem tells_of_told {l : Library} {sources : Table String} {r : Report}
    (hr : Report.Told (l.report.attach sources) r) : Tells 1 l { l with report := r } := by
  obtain ⟨kind, hkind⟩ := hr
  exact ⟨⟨rfl, rfl⟩, [kind], by rw [hkind, Report.kinds_attach], rfl⟩

/-- An operation that loads no text and reports no problem. -/
def Discreet (a : Action α) : Prop :=
  ∀ l, (a l).2.cache.loaded = l.cache.loaded ∧ (a l).2.report.kinds = l.report.kinds

namespace Discreet

theorem pure (x : α) : Discreet (Pure.pure x) := fun _ => ⟨rfl, rfl⟩

theorem fail (e : Accident) : Discreet (Computation.fail e : Action α) := fun _ => ⟨rfl, rfl⟩

theorem ofExcept (x : Except Accident α) : Discreet (Computation.ofExcept x) := by
  cases x with
  | ok x => exact pure x
  | error e => exact fail e

theorem bind {a : Action α} {f : α → Action β} (ha : Discreet a) (hf : ∀ x, Discreet (f x)) :
    Discreet (a >>= f) := by
  intro l
  change (a.bind f l).2.cache.loaded = _ ∧ (a.bind f l).2.report.kinds = _
  have hl := ha l
  match hr : a l with
  | (.ok x, l') =>
    simp only [Computation.bind, hr] at hl ⊢
    exact ⟨(hf x l').1.trans hl.1, (hf x l').2.trans hl.2⟩
  | (.error e, l') | (.exhausted, l') =>
    simp only [Computation.bind, hr] at hl ⊢
    exact hl

theorem info (words : List String) : Discreet (Library.info words) := fun _ => ⟨rfl, Report.kinds_info _ _⟩

theorem getDisk : Discreet Library.getDisk := fun _ => ⟨rfl, rfl⟩

theorem getCache : Discreet Library.getCache := fun _ => ⟨rfl, rfl⟩

theorem find (address : String) : Discreet (Library.find address) := by
  refine getCache.bind fun c => ?_
  split
  · exact pure _
  · split
    · have hfetch : Discreet (fetch address) :=
        (info _).bind fun _ => bind (fun _ => ⟨rfl, rfl⟩) fun answer => ofExcept answer
      exact hfetch.bind fun text => bind (fun _ => ⟨rfl, rfl⟩) fun _ => pure _
    · have hread : Discreet (readFile address) := (info _).bind fun _ => getDisk.bind fun d => ofExcept _
      exact hread.bind fun text => pure _

theorem save : Discreet Library.save := by
  refine getCache.bind fun c => ?_
  split
  · exact pure _
  · refine getDisk.bind fun d => (ofExcept _).bind fun d' => bind ?_ fun _ => ?_
    · exact fun _ => ⟨rfl, rfl⟩
    · split
      · exact (fail _).bind fun _ => info _
      · exact info _

end Discreet

/-- A text that was not loaded is loaded in the end, or nothing is. -/
structure Loads (address : String) (l : Library) (r : Outcome Accident Document × Library) : Prop where
  kinds : r.2.report.kinds = l.report.kinds
  gains : Table.Gains l.cache.loaded r.2.cache.loaded
  found : ∀ d, r.1 = .ok d → Table.find? r.2.cache.loaded address = some d
  fails : (∀ d, r.1 ≠ .ok d) → r.2.cache.loaded = l.cache.loaded

theorem getOrLoad_loads (address : String) (l : Library) : Loads address l (getOrLoad address l) := by
  cases hloaded : Table.find? l.cache.loaded address with
  | some d =>
    have heq : getOrLoad address l = (.ok d, l) := by
      simp only [getOrLoad, getCache, bind, Computation.bind, hloaded]
      rfl
    rw [heq]
    refine ⟨rfl, .refl _, fun d' hd => ?_, fun hd => absurd rfl (hd d)⟩
    obtain rfl := Outcome.ok.inj hd
    exact hloaded
  | none =>
    have heq : getOrLoad address l = Computation.bind (find address) (fun d => do
        modifyCache fun c => { c with loaded := Table.insert c.loaded address d }
        return d) l := by
      simp only [getOrLoad, getCache, bind, Computation.bind, hloaded]
    obtain ⟨hsame, hkinds⟩ := Discreet.find address l
    rw [heq]
    rcases hfind : find address l with ⟨o, l'⟩
    rw [hfind] at hsame hkinds
    simp only [Computation.bind, hfind]
    cases o with
    | ok d =>
      refine ⟨hkinds, ?_, fun d' hd => ?_, fun hd => absurd rfl (hd d)⟩
      · change Table.Gains l.cache.loaded (Table.insert l'.cache.loaded address d)
        rw [hsame]
        exact .insert hloaded d
      · obtain rfl := Outcome.ok.inj hd
        exact (Table.find?_insert _ _ _ _).trans (if_pos rfl)
    | error e | exhausted =>
      have hgains : Table.Gains l.cache.loaded l'.cache.loaded := by
        rw [hsame]
        exact .refl _
      exact ⟨hkinds, hgains, fun _ hd => (by cases hd), fun _ => hsame⟩

theorem getOrLoad_grows (address : String) (l : Library) : Grows 0 l (getOrLoad address l).2 := by
  have hloads := getOrLoad_loads address l
  exact ⟨hloads.gains, [], by rw [hloads.kinds, List.append_nil], rfl⟩

end Library

/-! ## Modules -/

/-- How many problems have been reported before a computation ends with this trouble. -/
def Trouble.told : Trouble → Nat
  | .reported _ => 1
  | _ => 0

/-- How many problems have been reported before a computation ends in this way. -/
def Outcome.told {α : Type} : Outcome Trouble α → Nat
  | .error t => t.told
  | _ => 0

namespace Session

/-- The readers were asked about the module at an address. -/
def consultReaders (s : Session) (address : String) : Session :=
  (s.note (.consulted .importReader address)).note (.consulted .grammar address)

/-- Everybody was asked about the module at an address. -/
def consultAll (s : Session) (address : String) : Session :=
  (s.note (.consulted .library address)).consultReaders address

def setLibrary (s : Session) (l : Library) : Session := { s with library := l }

def setFailed (s : Session) (failed : List String) : Session := { s with failed := failed }

end Session

namespace Engine

/-- Imports by their names and the addresses that their specifiers lead to. -/
def Resolves (address : String) : List Import → List (String × String) → Prop :=
  List.Forall₂ fun i p => i.name = p.1 ∧ Address.resolve address i.specifier = .ok p.2

/-- The library of a session, once it has been asked for the text at an address. -/
def asked (address : String) (s : Session) : Library := (Library.getOrLoad address s.library).2

/-- How the reading of the module at an address can go, and what it leaves of a session. -/
inductive Parses (c : Config) (address : String) (s : Session) : Outcome Trouble Module → Session → Prop where
  /-- it has been read before -/
  | known {m : Module} (h : Table.find? s.modules address = some m) : Parses c address s (.ok m) s
  /-- there is no text -/
  | unread (hnew : Table.find? s.modules address = none) {o : Outcome Trouble Module}
      (ho : o = .exhausted ∨ ∃ a, o = .error (.accident a)) :
      Parses c address s o ((s.note (.consulted .library address)).setLibrary (asked address s))
  /-- the text, or an import in it, is refused -/
  | refused (hnew : Table.find? s.modules address = none) {l : Library}
      (hl : Library.Tells 1 (asked address s) l) :
      Parses c address s (.error (.reported .parse)) ((s.consultAll address).setLibrary l)
  | stored (hnew : Table.find? s.modules address = none) {points : List Text.Point}
      (htext : Table.find? (asked address s).cache.loaded address = some (.text points))
      {said : ModuleSyntax} (hsaid : (c.read (Text.legible points)).verdict = .accepted said)
      {imports : List (String × String)}
      (himports : Resolves address ((Imports.read (Text.legible points)).getD []) imports) :
      Parses c address s (.ok ⟨address, imports, said.declarations, said.body⟩)
        (((s.consultAll address).setLibrary (asked address s)).store
          ⟨address, imports, said.declarations, said.body⟩)

namespace Parses

variable {c : Config} {address : String} {s s' : Session} {o : Outcome Trouble Module}

theorem values_eq (h : Parses c address s o s') : s'.values = s.values := by cases h <;> rfl

theorem evaluating_eq (h : Parses c address s o s') : s'.evaluating = s.evaluating := by cases h <;> rfl

theorem modules_gain (h : Parses c address s o s') : Table.Gains s.modules s'.modules := by
  cases h with
  | known _ | unread _ _ | refused _ _ => exact .refl _
  | stored hnew _ _ _ => exact .insert hnew _

/-- A module that has been read is kept. -/
theorem find?_modules {m : Module} (h : Parses c address s (.ok m) s') :
    Table.find? s'.modules address = some m := by
  cases h with
  | known h => exact h
  | unread _ ho => rcases ho with ho | ⟨a, ho⟩ <;> cases ho
  | stored _ _ _ _ => exact (Table.find?_insert _ _ _ _).trans (if_pos rfl)

/-- A module that cannot be read is not kept. -/
theorem modules_eq (h : Parses c address s o s') (ho : ∀ m, o ≠ .ok m) : s'.modules = s.modules := by
  cases h with
  | known _ | stored _ _ _ _ => exact absurd rfl (ho _)
  | unread _ _ | refused _ _ => rfl

theorem grows (h : Parses c address s o s') : Library.Grows o.told s.library s'.library := by
  have hasked : Library.Grows 0 s.library (asked address s) := Library.getOrLoad_grows address s.library
  cases h with
  | known _ => exact .refl _
  | unread _ ho =>
    rcases ho with rfl | ⟨a, rfl⟩
    · exact hasked
    · exact hasked
  | @refused _ l hl =>
    have hgrows : Library.Grows (0 + 1) s.library l := hasked.trans hl.grows
    exact hgrows
  | stored _ _ _ _ => exact hasked

end Parses

section Leaves

variable {α : Type} (m : EngineState)

theorem withLibrary_eq (a : Library.Action α) :
    withLibrary a m = (match (a m.rest.outer.library).1 with
      | .ok x => .ok x
      | .error e => .error (.accident e)
      | .exhausted => .exhausted, Heap.setOuter m (m.rest.outer.setLibrary (a m.rest.outer.library).2)) := by
  simp only [withLibrary]
  split <;> simp_all [Heap.setOuter, Session.setLibrary]

theorem giveUp_eq (phase : Phase) (f : Report → Report) :
    (giveUp phase f : Action α) m = (.error (.reported phase),
      Heap.setOuter m (m.rest.outer.setReport (f m.rest.outer.report))) := rfl

/-- The text of a module says something, or that it does not is reported. -/
theorem understand_cases (c : Config) (address text : String) :
    (∃ said, (c.read text).verdict = .accepted said ∧ understand c address text m = (.ok said, m)) ∨
      ∃ r, Report.Told m.rest.outer.report r ∧ understand c address text m =
        (.error (.reported .parse), Heap.setOuter m (m.rest.outer.setReport r)) := by
  cases hread : (c.read text).verdict with
  | broken f =>
    simp only [understand, hread]
    exact .inr ⟨_, Report.told_emit _ _, giveUp_eq m _ _⟩
  | refused =>
    simp only [understand, hread]
    exact .inr ⟨_, Report.told_emit _ _, giveUp_eq m _ _⟩
  | accepted said =>
    simp only [understand, hread]
    split
    · exact .inl ⟨said, rfl, rfl⟩
    · exact .inr ⟨_, Report.told_emit _ _, giveUp_eq m _ _⟩

/-- Imports are resolved, or that one cannot be is reported. -/
theorem resolveImports_cases (address : String) (is : List Import) :
    (∃ imports, Resolves address is imports ∧ resolveImports address is m = (.ok imports, m)) ∨
      ∃ r, Report.Told m.rest.outer.report r ∧ resolveImports address is m =
        (.error (.reported .parse), Heap.setOuter m (m.rest.outer.setReport r)) := by
  induction is with
  | nil => exact .inl ⟨[], .nil, rfl⟩
  | cons i is ih =>
    cases hi : Address.resolve address i.specifier with
    | error f =>
      simp only [resolveImports, hi]
      exact .inr ⟨_, Report.told_emit _ _, giveUp_eq m _ _⟩
    | ok target =>
      simp only [resolveImports, hi, bind, Computation.bind]
      rcases ih with ⟨imports, himports, heq⟩ | ⟨r, hr, heq⟩
      · rw [heq]
        exact .inl ⟨(i.name, target) :: imports, .cons ⟨rfl, hi⟩ himports, rfl⟩
      · rw [heq]
        exact .inr ⟨r, hr, rfl⟩

end Leaves

/-- A text is refused, which is reported, or the module in it is kept. -/
theorem readModule_cases (c : Config) (address text : String) (m : EngineState) :
    (∃ r, Report.Told m.rest.outer.report r ∧ readModule c address text m = (.error (.reported .parse),
      Heap.setOuter m ((m.rest.outer.consultReaders address).setReport r))) ∨
    ∃ said imports, (c.read text).verdict = .accepted said ∧
      Resolves address ((Imports.read text).getD []) imports ∧
      readModule c address text m = (.ok ⟨address, imports, said.declarations, said.body⟩,
        Heap.setOuter m ((m.rest.outer.consultReaders address).store
          ⟨address, imports, said.declarations, said.body⟩)) := by
  let m' := Heap.setOuter m (m.rest.outer.consultReaders address)
  have hread : readModule c address text m = (do
      let said ← understand c address text
      let imports ← resolveImports address ((Imports.read text).getD [])
      modify (·.store ⟨address, imports, said.declarations, said.body⟩)
      return ⟨address, imports, said.declarations, said.body⟩ : Action Module) m' := rfl
  simp only [hread, bind, Computation.bind]
  rcases understand_cases m' c address text with ⟨said, hsaid, heq⟩ | ⟨r, hr, heq⟩
  · rw [heq]
    rcases resolveImports_cases m' address ((Imports.read text).getD []) with
      ⟨imports, himports, heq⟩ | ⟨r, hr, heq⟩
    · simp only [heq]
      exact .inr ⟨said, imports, hsaid, himports, rfl⟩
    · simp only [heq]
      exact .inl ⟨r, hr, rfl⟩
  · rw [heq]
    exact .inl ⟨r, hr, rfl⟩

/-- What reading a module does to a session. -/
theorem parse_parses (c : Config) (address : String) (m : EngineState) :
    ∃ s, (parse c address m).2 = Heap.setOuter m s ∧ Parses c address m.rest.outer (parse c address m).1 s := by
  cases hnew : Table.find? m.rest.outer.modules address with
  | some x =>
    simp only [parse, session, bind, Computation.bind, hnew]
    exact ⟨m.rest.outer, rfl, .known hnew⟩
  | none =>
    have hloads := Library.getOrLoad_loads address m.rest.outer.library
    simp only [parse, session, hnew, bind, Computation.bind, note, modify, withLibrary_eq, Session.note]
    rcases hload : Library.getOrLoad address m.rest.outer.library with ⟨o, l⟩
    have hasked : asked address m.rest.outer = l := congrArg Prod.snd hload
    rw [hload, ← hasked] at hloads
    rw [← hasked]
    cases o with
    | error e => exact ⟨_, rfl, .unread hnew (.inr ⟨_, rfl⟩)⟩
    | exhausted => exact ⟨_, rfl, .unread hnew (.inl rfl)⟩
    | ok d =>
      let m' := Heap.setOuter m
        ((m.rest.outer.note (.consulted .library address)).setLibrary (asked address m.rest.outer))
      cases d with
      | text points =>
        change ∃ s, (readModule c address (Text.legible points) m').2 = _ ∧
          Parses c address _ (readModule c address (Text.legible points) m').1 s
        rcases readModule_cases c address (Text.legible points) m' with
          ⟨r, hr, heq⟩ | ⟨said, imports, hsaid, himports, heq⟩
        · rw [heq]
          exact ⟨_, rfl, .refused hnew (Library.tells_of_told hr)⟩
        · rw [heq]
          exact ⟨_, rfl, .stored hnew (hloads.found _ rfl) hsaid himports⟩
      | null | bool _ | int _ | float _ | array _ | object _ => exact ⟨_, rfl, .unread hnew (.inr ⟨_, rfl⟩)⟩

/-! ## Evaluating -/

/-- What blame makes of a session, and the trouble that it ends with. -/
inductive Blames (e : SemanticError) (address : String) (s : Session) : Trouble → Session → Prop where
  | told {l : Library} (hl : Library.Tells 1 s.library l) :
      Blames e address s (.reported .evaluate) ((s.note (.blamed e (culprit e address))).setLibrary l)
  /-- nobody knows how to report the error -/
  | untold (a : Accident) : Blames e address s (.accident a) (s.note (.blamed e (culprit e address)))

namespace Blames

variable {e : SemanticError} {address : String} {s s' : Session} {t : Trouble}

theorem values_eq (h : Blames e address s t s') : s'.values = s.values := by cases h <;> rfl

theorem modules_eq (h : Blames e address s t s') : s'.modules = s.modules := by cases h <;> rfl

theorem evaluating_eq (h : Blames e address s t s') : s'.evaluating = s.evaluating := by cases h <;> rfl

theorem grows (h : Blames e address s t s') :
    Library.Grows t.told s.library s'.library := by
  cases h with
  | told hl => exact hl.grows
  | untold a => exact .refl _

theorem alike (h : Blames e address s t s') : s.library.Alike s'.library := by
  cases h with
  | told hl => exact hl.toAlike
  | untold a => exact .refl _

/-- Nobody is consulted. -/
theorem quiet (h : Blames e address s t s') :
    ∃ new, s'.journal = new ++ s.journal ∧ ∀ source a, .consulted source a ∉ new := by
  cases h with
  | told _ | untold _ => exact ⟨[.blamed _ _], rfl, by simp⟩

end Blames

theorem blame_blames {α : Type} (e : SemanticError) (address : String) (m : EngineState) :
    ∃ t s, (blame e address : Action α) m = (.error t, Heap.setOuter m s) ∧
      Blames e address m.rest.outer t s := by
  let s := m.rest.outer.note (.blamed e (culprit e address))
  cases hr : s.report.blame e.cause (culprit e address) with
  | ok r =>
    refine ⟨.reported .evaluate, s.setReport r, ?_, .told (Library.tells_of_told (Report.told_blame hr))⟩
    simp only [blame, note, session, modify, bind, Computation.bind]
    rw [hr]
    rfl
  | error a =>
    refine ⟨.accident a, s, ?_, .untold a⟩
    simp only [blame, note, session, modify, bind, Computation.bind]
    rw [hr]
    rfl

/-- Handles the trouble that ends the showing of the value of the module at an address. -/
def handleShown (address : String) : Trouble → Action String
  | .semantic e => blame e address
  | t => Computation.fail t

/-- How the evaluation of the module at an address is wound up, given how its body ended. -/
inductive Settles (address : String) (s : Session) :
    Outcome Trouble Value → Outcome Trouble Value → Session → Prop where
  | valued (v : Value) : Settles address s (.ok v) (.ok v) ((s.leave address).setValue address v)
  | blamed {e : SemanticError} {failed : List String} {t : Trouble} {s' : Session}
      (h : Blames e address (s.setFailed failed) t s') :
      Settles address s (.error (.semantic e)) (.error t) (s'.leave address)
  | reported (phase : Phase) (failed : List String) :
      Settles address s (.error (.reported phase)) (.error (.reported phase))
        ((s.setFailed failed).leave address)
  | accident (a : Accident) :
      Settles address s (.error (.accident a)) (.error (.accident a)) (s.leave address)
  | exhausted : Settles address s .exhausted .exhausted (s.leave address)

namespace Settles

variable {address : String} {s s' : Session} {o o' : Outcome Trouble Value}

theorem evaluating_eq (h : Settles address s o o' s') : s'.evaluating = s.evaluating.dropLast := by
  cases h with
  | blamed h => exact congrArg List.dropLast h.evaluating_eq
  | valued _ | reported _ _ | accident _ | exhausted => rfl

theorem modules_eq (h : Settles address s o o' s') : s'.modules = s.modules := by
  cases h with
  | blamed h => exact h.modules_eq
  | valued _ | reported _ _ | accident _ | exhausted => rfl

/-- Only a module whose body has a value gets one. -/
theorem values_cases (h : Settles address s o o' s') :
    s'.values = s.values ∨ ∃ v, s'.values = Table.insert s.values address v := by
  cases h with
  | valued v => exact .inr ⟨v, rfl⟩
  | blamed h => exact .inl h.values_eq
  | reported _ _ | accident _ | exhausted => exact .inl rfl

/-- What went wrong in the body is reported, unless it has been. -/
theorem grows (h : Settles address s o o' s') {l : Library} (hl : Library.Grows o.told l s.library) :
    Library.Grows o'.told l s'.library := by
  cases h with
  | @blamed e failed t s' h =>
    have hgrows : Library.Grows (0 + t.told) l s'.library := hl.trans h.grows
    rwa [Nat.zero_add] at hgrows
  | valued _ | reported _ _ | accident _ | exhausted => exact hl

theorem alike (h : Settles address s o o' s') : s.library.Alike s'.library := by
  cases h with
  | blamed h => exact h.alike
  | valued _ | reported _ _ | accident _ | exhausted => exact .refl _

/-- Nobody is consulted. -/
theorem quiet (h : Settles address s o o' s') :
    ∃ new, s'.journal = new ++ s.journal ∧ ∀ source a, .consulted source a ∉ new := by
  cases h with
  | valued v => exact ⟨[.valued address, .left address], rfl, by simp⟩
  | blamed h =>
    obtain ⟨new, hjournal, hnew⟩ := h.quiet
    exact ⟨.left address :: new, congrArg _ hjournal, by simpa using hnew⟩
  | reported _ _ | accident _ | exhausted => exact ⟨[.left address], rfl, by simp⟩

end Settles

theorem markFailed_eq (s : Session) (address : String) :
    ∃ failed, s.markFailed address = s.setFailed failed := by
  unfold Session.markFailed
  split
  · exact ⟨s.failed, rfl⟩
  · exact ⟨_, rfl⟩

/-- The library once the evaluation of the module at an address has been announced. -/
def announced (address : String) (l : Library) : Library := (Library.info ["Evaluating", address] l).2

theorem announced_tells (address : String) (l : Library) : Library.Tells 0 l (announced address l) :=
  ⟨⟨rfl, rfl⟩, [], by rw [announced, (Library.Discreet.info _ l).2, List.append_nil], rfl⟩

/-- Winds up the evaluation of the module at an address, given how its body ended. -/
def windUp (address : String) (r : Outcome Trouble Value × EngineState) :
    Outcome Trouble Value × EngineState :=
  Computation.bind (Computation.ensure (Computation.tryCatch (fun _ => r) (handleTrouble address)) (pop address))
    (fun v => do
      modify (·.setValue address v)
      return v) r.2

/-- The body of a module is evaluated with the module on top of those under evaluation. -/
theorem evaluateModule_eq (w : Eval.Walker Session) (address : String) (x : Module) (m : EngineState) :
    evaluateModule w address x m = windUp address (evaluateBody w address x (Heap.setOuter m
      ((m.rest.outer.setLibrary (announced address m.rest.outer.library)).enter address))) := rfl

theorem windUp_settles (address : String) (r : Outcome Trouble Value × EngineState) :
    ∃ o s, windUp address r = (o, Heap.setOuter r.2 s) ∧ Settles address r.2.rest.outer r.1 o s := by
  simp only [windUp, bind, Computation.bind, Computation.ensure, Computation.tryCatch]
  match r with
  | (.ok v, m') => exact ⟨_, _, rfl, .valued v⟩
  | (.exhausted, m') => exact ⟨_, _, rfl, .exhausted⟩
  | (.error (.accident a), m') => exact ⟨_, _, rfl, .accident a⟩
  | (.error (.reported phase), m') =>
    obtain ⟨failed, hfailed⟩ := markFailed_eq m'.rest.outer address
    refine ⟨_, ((m'.rest.outer.markFailed address).leave address), rfl, ?_⟩
    rw [hfailed]
    exact .reported phase failed
  | (.error (.semantic e), m') =>
    obtain ⟨failed, hfailed⟩ := markFailed_eq m'.rest.outer address
    obtain ⟨t, s, heq, hblames⟩ := blame_blames (α := Value) e address
      (Heap.setOuter m' (m'.rest.outer.markFailed address))
    have hhandle : handleTrouble address (.semantic e) m' = (.error t, Heap.setOuter m' s) := heq
    rw [Heap.outer_setOuter, hfailed] at hblames
    simp only [hhandle]
    exact ⟨_, _, rfl, .blamed hblames⟩

end Engine

end LazyModules
