import LazyModules.Proofs.Library.RoundTrip
import Mathlib.Data.List.Induction

/-!
# Runs that share a snapshot

A library is opened in one run after the other, with the same path for the snapshot. In a run texts are
asked for, some are had and some are not, and all the while the disk and the network may change. Between
two runs anything may change but the snapshot.

Everything that was ever fetched is in the snapshot (`Keeping`): one question keeps that up
(`Keeping.ask`), so all the steps of a run do (`Keeping.takeAll`), and the snapshot that is saved at the end
is the one that the next run finds (`Ran.kept`).

**Results.**
* `getOrLoad_gets`: the six ways in which a question for a text can go.
* `Run.go_spec`: a run that can write its snapshot ends as its steps do, and leaves the snapshot behind.
* `fetched_once_across_runs`: over all the runs no URL is fetched twice with success, and the snapshot holds what was
  fetched.
-/
namespace LazyModules.Library

/-! ## One question -/

/-- How a question for the text at an address can go. -/
inductive Gets (address : String) (l : Library) : Outcome Accident Document × Library → Prop
  | loaded {d : Document} (h : Table.find? l.cache.loaded address = some d) : Gets address l (.ok d, l)
  | persisted {d : Document} (hnew : Table.find? l.cache.loaded address = none)
      (h : Table.find? l.cache.persisted (Text.pointsOf address) = some d) :
      Gets address l
        (.ok d, { l with cache := { l.cache with loaded := Table.insert l.cache.loaded address d } })
  | fetched {text : String} {report : Report} (hnew : Table.find? l.cache.loaded address = none)
      (hmiss : Table.find? l.cache.persisted (Text.pointsOf address) = none)
      (hremote : Address.isRemote address = true) (h : (l.world.fetch address).1 = .ok text) :
      Gets address l
        (.ok (.text (Text.pointsOf text)),
          ⟨{ l.cache with
              persisted := Table.insert l.cache.persisted (Text.pointsOf address) (.text (Text.pointsOf text))
              loaded := Table.insert l.cache.loaded address (.text (Text.pointsOf text)) },
            report, (l.world.fetch address).2⟩)
  | unreachable {e : Accident} {report : Report} (hnew : Table.find? l.cache.loaded address = none)
      (hmiss : Table.find? l.cache.persisted (Text.pointsOf address) = none)
      (hremote : Address.isRemote address = true) (h : (l.world.fetch address).1 = .error e) :
      Gets address l (.error e, ⟨l.cache, report, (l.world.fetch address).2⟩)
  | read {text : String} {report : Report} (hnew : Table.find? l.cache.loaded address = none)
      (hmiss : Table.find? l.cache.persisted (Text.pointsOf address) = none)
      (hlocal : Address.isRemote address = false) (h : l.world.disk.readText address = .ok text) :
      Gets address l
        (.ok (.text (Text.pointsOf text)),
          ⟨{ l.cache with loaded := Table.insert l.cache.loaded address (.text (Text.pointsOf text)) },
            report, l.world⟩)
  | unreadable {e : Accident} {report : Report} (hnew : Table.find? l.cache.loaded address = none)
      (hmiss : Table.find? l.cache.persisted (Text.pointsOf address) = none)
      (hlocal : Address.isRemote address = false) (h : l.world.disk.readText address = .error e) :
      Gets address l (.error e, ⟨l.cache, report, l.world⟩)

theorem fetch_eq (url : String) (l : Library) :
    fetch url l = (match (l.world.fetch url).1 with | .ok text => .ok text | .error e => .error e,
      ⟨l.cache, l.report.info ["Fetching", url], (l.world.fetch url).2⟩) := by
  simp only [fetch, info, Computation.modify, bind, Computation.bind]
  cases (l.world.fetch url).1 <;> rfl

theorem readFile_eq (path : String) (l : Library) :
    readFile path l = (match l.world.disk.readText path with | .ok text => .ok text | .error e => .error e,
      ⟨l.cache, l.report.info ["Loading", path], l.world⟩) := by
  simp only [readFile, info, getDisk, Computation.modify, bind, Computation.bind]
  cases l.world.disk.readText path <;> rfl

theorem getOrLoad_gets (address : String) (l : Library) : Gets address l (getOrLoad address l) := by
  simp only [getOrLoad, getCache, bind, Computation.bind]
  cases hnew : Table.find? l.cache.loaded address with
  | some d => exact .loaded hnew
  | none =>
    simp only [find, getCache, bind, Computation.bind]
    cases hmiss : Table.find? l.cache.persisted (Text.pointsOf address) with
    | some d => exact .persisted hnew hmiss
    | none =>
      cases hremote : Address.isRemote address with
      | true =>
        simp only [if_true, Computation.bind, fetch_eq]
        cases h : (l.world.fetch address).1 with
        | ok text => exact .fetched hnew hmiss hremote h
        | error e => exact .unreachable hnew hmiss hremote h
      | false =>
        simp only [Bool.false_eq_true, if_false, Computation.bind, readFile_eq]
        cases h : l.world.disk.readText address with
        | ok text => exact .read hnew hmiss hremote h
        | error e => exact .unreadable hnew hmiss hremote h

/-- A text that cannot be had changes neither of the tables. -/
theorem cache_of_failed {address : String} {l : Library} (h : ∀ d, (getOrLoad address l).1 ≠ .ok d) :
    (getOrLoad address l).2.cache = l.cache := by
  have hgets := getOrLoad_gets address l
  generalize getOrLoad address l = r at h hgets
  cases hgets with
  | loaded | persisted | fetched | read => exact absurd rfl (h _)
  | unreachable | unreadable => rfl

/-! ## Runs -/

/-- What happens in a run: a text is asked for, or the disk and the network change. A failure is for the one
who asked, who may go on with something else. -/
inductive Step where
  | ask (address : String)
  | change (disk : Disk) (remote : Table Response)

/-- A library in front of another disk and another network. -/
def facing (disk : Disk) (remote : Table Response) (l : Library) : Library :=
  { l with world := { l.world with disk := disk, remote := remote } }

def Step.take : Step → Library → Library
  | .ask address, l => (getOrLoad address l).2
  | .change disk remote, l => facing disk remote l

def takeAll (steps : List Step) (l : Library) : Library := steps.foldl (fun l step => step.take l) l

/-- The URLs that a step fetches with success, each with its text. -/
def Step.fetches : Step → Library → List (String × String)
  | .ask address, l =>
    ((getOrLoad address l).2.world.fetched.drop l.world.fetched.length).filterMap fun url =>
      (l.world.fetch url).1.toOption.map fun text => (url, text)
  | .change _ _, _ => []

/-- What some steps fetch with success, in that order. -/
def fetches : List Step → Library → List (String × String)
  | [], _ => []
  | step :: steps, l => step.fetches l ++ fetches steps (step.take l)

def reopen (path : String) : Action Unit := do
  modifyCache fun _ => .empty (some path)
  load

/-- A run: the disk and the network at its beginning, its steps, and how it ends after them. -/
structure Run where
  disk : Disk
  remote : Table Response
  steps : List Step
  ending : Outcome Accident Unit

namespace Run

variable (path : String) (r : Run) (l : Library)

def body : Action Unit := fun l => (r.ending, takeAll r.steps l)

def go : Outcome Accident Unit × Library := opened (some path) r.body (facing r.disk r.remote l)

/-- The library when its snapshot has been read. -/
def start : Library := (reopen path (facing r.disk r.remote l)).2

/-- Since the library `l` was left, nobody has touched the snapshot. -/
def Finds : Prop :=
  r.disk.doesExist path = l.world.disk.doesExist path ∧ r.disk.readText path = l.world.disk.readText path

def Writes : Prop :=
  ∀ data, ∃ d, (takeAll r.steps (r.start path l)).world.disk.write path data = .ok d

end Run

/-- Some runs, from when there is no snapshot: the library that they leave, and all that they fetched. -/
inductive Ran (path : String) : List Run → Library → List (String × String) → Prop
  | none {l : Library} (h : l.world.disk.doesExist path = .ok false) : Ran path [] l []
  | run {runs : List Run} {l : Library} {history : List (String × String)} (h : Ran path runs l history) (r : Run)
      (hfinds : r.Finds path l) (hwrites : r.Writes path l) :
      Ran path (runs ++ [r]) (r.go path l).2 (history ++ fetches r.steps (r.start path l))

/-! ## What was fetched is kept -/

/-- What goes into the snapshot are the rows, each under the URL it was fetched from. -/
structure Keeping (path : String) (rows : List (String × String)) (l : Library) : Prop where
  path : l.cache.path = some path
  persisted : l.cache.persisted = Document.fieldsOf rows
  keys : (Table.keys rows).Nodup
  remote : ∀ row ∈ rows, Address.isRemote row.1 = true

theorem find?_fieldsOf (rows : List (String × String)) (k : String) :
    Table.find? (Document.fieldsOf rows) (Text.pointsOf k) =
      (Table.find? rows k).map fun v => .text (Text.pointsOf v) := by
  induction rows with
  | nil => rfl
  | cons r rows ih =>
    rw [Table.find?_cons]
    by_cases hk : k = r.1
    · rw [if_pos hk, hk]
      simp [Document.fieldsOf, Table.find?]
    · have hne : Text.pointsOf k ≠ Text.pointsOf r.1 := fun heq => hk (Document.pointsOf_injective heq)
      rw [if_neg hk, ← ih]
      simp only [Document.fieldsOf, Table.find?, List.map_cons, List.lookup_cons]
      split
      · rename_i heq
        exact absurd (eq_of_beq heq) hne
      · rfl

namespace Keeping

variable {path : String} {rows : List (String × String)} {l : Library}

theorem find?_persisted (h : Keeping path rows l) (address : String) :
    Table.find? l.cache.persisted (Text.pointsOf address) = none ↔ address ∉ Table.keys rows := by
  rw [h.persisted, find?_fieldsOf, Option.map_eq_none_iff, Table.find?_eq_none_iff]

/-- What is kept depends on the path of the snapshot and on what goes into it. -/
theorem congr (h : Keeping path rows l) {l' : Library} (hpath : l'.cache.path = l.cache.path)
    (hpersisted : l'.cache.persisted = l.cache.persisted) : Keeping path rows l' :=
  ⟨hpath.trans h.path, hpersisted.trans h.persisted, h.keys, h.remote⟩

/-- A step adds what it fetches. -/
theorem take (h : Keeping path rows l) (step : Step) :
    Keeping path (rows ++ step.fetches l) (step.take l) := by
  cases step with
  | change disk remote =>
    simp only [Step.fetches, List.append_nil]
    exact h.congr rfl rfl
  | ask address =>
    have hgets := getOrLoad_gets address l
    simp only [Step.fetches, Step.take]
    generalize getOrLoad address l = r at hgets
    cases hgets with
    | loaded | persisted | read | unreadable =>
      simp only [List.drop_length, List.filterMap_nil, List.append_nil]
      exact h.congr rfl rfl
    | unreachable hnew hmiss hremote hanswer =>
      have hnone : ([address].filterMap fun url => (l.world.fetch url).1.toOption.map fun text => (url, text)) = [] := by
        simp [hanswer, Except.toOption]
      have hasked : (l.world.fetch address).2.fetched.drop l.world.fetched.length = [address] := by
        simp [World.fetch]
      rw [hasked, hnone, List.append_nil]
      exact h.congr rfl rfl
    | @fetched text _ hnew hmiss hremote hanswer =>
      have hone : ([address].filterMap fun url => (l.world.fetch url).1.toOption.map fun text => (url, text)) =
          [(address, text)] := by
        simp [hanswer, Except.toOption]
      have hasked : (l.world.fetch address).2.fetched.drop l.world.fetched.length = [address] := by
        simp [World.fetch]
      have hkey := (h.find?_persisted address).mp hmiss
      rw [hasked, hone]
      refine ⟨h.path, ?_, ?_, ?_⟩
      · rw [← Document.insert_fieldsOf hkey, ← h.persisted]
      · rw [Table.keys, List.map_append, List.map_cons, List.map_nil, List.nodup_append_comm]
        exact List.nodup_cons.mpr ⟨hkey, h.keys⟩
      · intro row hrow
        rcases List.mem_append.mp hrow with hrow | hrow
        · exact h.remote row hrow
        · rwa [List.mem_singleton.mp hrow]

/-- The steps of a run add what they fetch. -/
theorem takeAll (h : Keeping path rows l) (steps : List Step) :
    Keeping path (rows ++ fetches steps l) (Library.takeAll steps l) := by
  induction steps generalizing rows l with
  | nil => rwa [fetches, List.append_nil]
  | cons step steps ih =>
    rw [fetches, ← List.append_assoc]
    exact ih (h.take step)

end Keeping

/-! ## From one run to the next -/

/-- A run reads the snapshot that it finds. -/
theorem reopen_eq {path : String} {l : Library} {rows : List (String × String)}
    (h : Snapshot l.world.disk path rows) (hkeys : (Table.keys rows).Nodup) :
    ∃ report, reopen path l = (.ok (), ⟨⟨some path, Document.fieldsOf rows, []⟩, report, l.world⟩) := by
  obtain ⟨report, hload⟩ := load_eq (l := { l with cache := .empty (some path) }) rfl h hkeys
  refine ⟨report, ?_⟩
  rw [← hload]
  rfl

/-- What was fetched before a run is kept in it from the start. -/
theorem Run.start_keeping {path : String} {r : Run} {l : Library} {rows : List (String × String)}
    (h : Snapshot r.disk path rows) (hkeys : (Table.keys rows).Nodup)
    (hremote : ∀ row ∈ rows, Address.isRemote row.1 = true) :
    Keeping path rows (r.start path l) ∧ (r.start path l).cache.loaded = [] := by
  obtain ⟨report, hreopen⟩ := reopen_eq (l := facing r.disk r.remote l) h hkeys
  rw [Run.start, hreopen]
  exact ⟨⟨rfl, rfl, hkeys, hremote⟩, rfl⟩

/-- A run that finds its snapshot and can write it ends as its steps do, and leaves in the snapshot what was
there and what it fetched. -/
theorem Run.go_spec {path : String} {r : Run} {l : Library} {rows : List (String × String)}
    (h : Snapshot r.disk path rows) (hkeys : (Table.keys rows).Nodup)
    (hremote : ∀ row ∈ rows, Address.isRemote row.1 = true) (hwrites : r.Writes path l) :
    (r.go path l).1 = r.ending ∧
      (r.go path l).2.world.disk.Holds path (rows ++ fetches r.steps (r.start path l)) := by
  obtain ⟨report, hreopen⟩ := reopen_eq (l := facing r.disk r.remote l) h hkeys
  have hkept := (Run.start_keeping (l := l) h hkeys hremote).1.takeAll r.steps
  obtain ⟨d, hwrite⟩ := hwrites
    (.text (Document.encode (Document.object (Document.fieldsOf (rows ++ fetches r.steps (r.start path l)))).pieces))
  obtain ⟨report', hsave⟩ := save_rows hkept.path hkept.persisted hwrite
  have hgo : r.go path l = (r.ending, ⟨(Library.takeAll r.steps (r.start path l)).cache, report',
      { (Library.takeAll r.steps (r.start path l)).world with disk := d }⟩) := by
    have hload : load { facing r.disk r.remote l with cache := .empty (some path) } = (.ok (), r.start path l) := by
      change reopen path (facing r.disk r.remote l) = _
      rw [Run.start, hreopen]
    simp only [Run.go, opened, bind, Computation.bind, modifyCache, Computation.modify, hload, Run.body, hsave]
  rw [hgo]
  exact ⟨rfl, Disk.holds_write hkept.keys hwrite⟩

/-- After some runs the snapshot holds what they fetched: each URL once, and nothing local. -/
theorem Ran.kept {path : String} {runs : List Run} {l : Library} {history : List (String × String)}
    (h : Ran path runs l history) :
    Snapshot l.world.disk path history ∧ (Table.keys history).Nodup ∧
      ∀ row ∈ history, Address.isRemote row.1 = true := by
  induction h with
  | none hnone => exact ⟨.inl ⟨hnone, rfl⟩, List.nodup_nil, by simp⟩
  | @run runs l history _ r hfinds hwrites ih =>
    obtain ⟨hsnapshot, hkeys, hremote⟩ := ih
    have hfound := hsnapshot.congr hfinds.1 hfinds.2
    have hkept := (Run.start_keeping (l := l) hfound hkeys hremote).1.takeAll r.steps
    exact ⟨.inr (Run.go_spec hfound hkeys hremote hwrites).2, hkept.keys, hkept.remote⟩

/-! ## Local texts -/

/-- Whenever the address was asked for, it could not be read. -/
def NeverRead (address : String) (steps : List Step) (l : Library) : Prop :=
  ∀ earlier later, steps = earlier ++ .ask address :: later →
    ∃ e, (takeAll earlier l).world.disk.readText address = .error e

/-- The text is what was on disk when the address was asked for the first time at which it could be read. -/
def FirstRead (address text : String) (steps : List Step) (l : Library) : Prop :=
  ∃ before after, steps = before ++ .ask address :: after ∧
    (takeAll before l).world.disk.readText address = .ok text ∧ NeverRead address before l

theorem FirstRead.append {address text : String} {steps : List Step} {l : Library}
    (h : FirstRead address text steps l) (more : List Step) : FirstRead address text (steps ++ more) l := by
  obtain ⟨before, after, rfl, hread, hearlier⟩ := h
  exact ⟨before, after ++ more, by simp, hread, hearlier⟩

/-- One step more: another question or a change, or the address could again not be read. -/
theorem NeverRead.concat {address : String} {steps : List Step} {l : Library} (h : NeverRead address steps l)
    {step : Step}
    (hstep : step = .ask address → ∃ e, (takeAll steps l).world.disk.readText address = .error e) :
    NeverRead address (steps ++ [step]) l := by
  intro earlier later heq
  rcases List.eq_nil_or_concat later with rfl | ⟨later, last, rfl⟩
  · obtain ⟨rfl, hlast⟩ := List.append_inj' heq rfl
    exact hstep (List.cons.inj hlast).1
  · rw [List.concat_eq_append, ← List.cons_append, ← List.append_assoc] at heq
    exact h earlier later (List.append_inj' heq rfl).1

/-- What a run has loaded under a local address. -/
def LoadedFirst (address : String) (steps : List Step) (l : Library) : Prop :=
  match Table.find? (takeAll steps l).cache.loaded address with
  | none => NeverRead address steps l
  | some d => ∃ text, d = .text (Text.pointsOf text) ∧ FirstRead address text steps l

theorem find?_loaded_take {address : String} {step : Step} (hstep : step ≠ .ask address) (l : Library) :
    Table.find? (step.take l).cache.loaded address = Table.find? l.cache.loaded address := by
  cases step with
  | change disk remote => rfl
  | ask other =>
    have hne : address ≠ other := fun heq => hstep (by rw [heq])
    have hgets := getOrLoad_gets other l
    rw [Step.take]
    generalize getOrLoad other l = r at hgets
    cases hgets with
    | loaded | unreachable | unreadable => rfl
    | persisted | fetched | read => exact (Table.find?_insert ..).trans (if_neg hne)

/-- In every run the text of a local address is the one that was on disk when it was first read. -/
theorem loadedFirst_of_keeping {path : String} {rows : List (String × String)} {l : Library}
    (h : Keeping path rows l) (hloaded : l.cache.loaded = []) {address : String}
    (hlocal : Address.isRemote address = false) (steps : List Step) : LoadedFirst address steps l := by
  induction steps using List.reverseRecOn with
  | nil =>
    rw [LoadedFirst]
    simp only [takeAll, List.foldl_nil, hloaded]
    intro earlier later heq
    simp at heq
  | append_singleton steps step ih =>
    have htake : takeAll (steps ++ [step]) l = step.take (takeAll steps l) := by
      simp [takeAll]
    have hkept := h.takeAll steps
    rw [LoadedFirst, htake]
    rw [LoadedFirst] at ih
    by_cases hstep : step = .ask address
    · subst hstep
      have hgets := getOrLoad_gets address (takeAll steps l)
      rw [Step.take]
      generalize getOrLoad address (takeAll steps l) = r at hgets
      cases hgets with
      | @loaded d hd =>
        rw [hd] at ih ⊢
        obtain ⟨text, htext, hfirst⟩ := ih
        exact ⟨text, htext, hfirst.append _⟩
      | persisted hnew hfound =>
        have hmiss : Table.find? (takeAll steps l).cache.persisted (Text.pointsOf address) = none := by
          rw [hkept.find?_persisted]
          intro hmem
          obtain ⟨row, hrow, rfl⟩ := List.mem_map.mp hmem
          rw [hkept.remote row hrow] at hlocal
          cases hlocal
        rw [hmiss] at hfound
        cases hfound
      | fetched hnew hmiss hremote | unreachable hnew hmiss hremote =>
        rw [hremote] at hlocal
        cases hlocal
      | @read text report hnew hmiss _ hread =>
        rw [hnew] at ih
        rw [Table.find?_insert, if_pos rfl]
        exact ⟨text, rfl, steps, [], rfl, hread, ih⟩
      | @unreadable e report hnew hmiss _ hread =>
        rw [hnew] at ih ⊢
        exact NeverRead.concat ih fun _ => ⟨e, hread⟩
    · rw [find?_loaded_take hstep]
      cases hfind : Table.find? (takeAll steps l).cache.loaded address with
      | none =>
        rw [hfind] at ih
        exact NeverRead.concat ih fun heq => absurd heq hstep
      | some d =>
        rw [hfind] at ih
        obtain ⟨text, htext, hfirst⟩ := ih
        exact ⟨text, htext, hfirst.append _⟩

/-- A text that was had has been loaded. -/
theorem loaded_of_ok {address : String} {l : Library} {d : Document} (h : (getOrLoad address l).1 = .ok d) :
    Table.find? (getOrLoad address l).2.cache.loaded address = some d := by
  have hgets := getOrLoad_gets address l
  generalize getOrLoad address l = r at h hgets
  cases hgets with
  | loaded hfind =>
    obtain rfl := Outcome.ok.inj h
    exact hfind
  | persisted | fetched | read =>
    obtain rfl := Outcome.ok.inj h
    rw [Table.find?_insert, if_pos rfl]
  | unreachable | unreadable => cases h

/-! ## All the runs -/

/-- Over all the runs that share a snapshot, which was not there at first, no URL is fetched twice with
success. After each of them the snapshot holds just what was fetched, each text under its URL, and nothing
local. A text that cannot be had changes neither of the tables. A run ends as its steps do, and in it the text
of a local address is the one that was on disk when it was first read. -/
theorem fetched_once_across_runs {path : String} {runs : List Run} {l : Library}
    {history : List (String × String)} (h : Ran path runs l history) :
    (Table.keys history).Nodup ∧ (∀ row ∈ history, Address.isRemote row.1 = true) ∧
      (runs ≠ [] → l.world.disk.Holds path history) ∧
      (∀ (address : String) (l : Library), (∀ d, (getOrLoad address l).1 ≠ .ok d) →
        (getOrLoad address l).2.cache = l.cache) ∧
      ∀ r : Run, r.Finds path l →
        (r.Writes path l → (r.go path l).1 = r.ending) ∧
        ∀ (steps : List Step) (address : String) (d : Document), Address.isRemote address = false →
          (getOrLoad address (takeAll steps (r.start path l))).1 = .ok d →
          ∃ text, d = .text (Text.pointsOf text) ∧
            FirstRead address text (steps ++ [.ask address]) (r.start path l) := by
  obtain ⟨hsnapshot, hkeys, hremote⟩ := h.kept
  refine ⟨hkeys, hremote, ?_, fun address l => cache_of_failed, fun r hfinds => ?_⟩
  · intro hruns
    cases h with
    | none => exact absurd rfl hruns
    | run h r hfinds hwrites =>
      obtain ⟨hsnapshot, hkeys, hremote⟩ := h.kept
      exact (Run.go_spec (hsnapshot.congr hfinds.1 hfinds.2) hkeys hremote hwrites).2
  · have hfound := hsnapshot.congr hfinds.1 hfinds.2
    refine ⟨fun hwrites => (Run.go_spec hfound hkeys hremote hwrites).1, fun steps address d hlocal hok => ?_⟩
    obtain ⟨hkeeping, hloaded⟩ := Run.start_keeping (l := l) hfound hkeys hremote
    have hfirst := loadedFirst_of_keeping hkeeping hloaded hlocal (steps ++ [.ask address])
    have htake : takeAll (steps ++ [.ask address]) (r.start path l) =
        (getOrLoad address (takeAll steps (r.start path l))).2 := by
      simp [takeAll, Step.take]
    rwa [LoadedFirst, htake, loaded_of_ok hok] at hfirst

/-- A URL and a file, each asked for before and after they change, in a run that ends by an accident. Then the
network is down, and the snapshot has the text. -/
theorem fetched_once_across_runs_offline :
    let disk (text : String) : Disk := ⟨[(["m"], .text text)], [[]], [], true⟩
    let l : Library := ⟨.empty none, .empty false, ⟨disk "old", [], []⟩⟩
    let r : Run := ⟨disk "old", [("https://h/x", ⟨"1\r\n\"2\"", 200, "OK"⟩)],
      [.ask "https://h/x", .ask "m", .change (disk "new") [], .ask "https://h/x", .ask "m"], .error .nulInPath⟩
    let history := [("https://h/x", "1\r\n\"2\"")]
    Ran "c" [r] (r.go "c" l).2 history ∧ (r.go "c" l).2.world.disk.Holds "c" history := by
  intro disk l r history
  have hran : Ran "c" ([] ++ [r]) (r.go "c" l).2 ([] ++ fetches r.steps (r.start "c" l)) := by
    have hplace : ((takeAll r.steps (r.start "c" l)).world.disk.target "c").place?.isSome = true := by decide +kernel
    exact .run (.none rfl) r ⟨rfl, rfl⟩ fun data => Disk.write_of_place (by decide) hplace data
  have hhistory : [] ++ fetches r.steps (r.start "c" l) = history := by decide +kernel
  rw [hhistory] at hran
  exact ⟨hran, (fetched_once_across_runs hran).2.2.1 (by decide)⟩

end LazyModules.Library
