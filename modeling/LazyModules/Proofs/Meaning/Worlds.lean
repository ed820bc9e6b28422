import LazyModules.Proofs.Engine.Texts
import LazyModules.Proofs.Meaning.Maps

/-!
# Engines and what they stand for

A world is an engine with a map that tells what is in it. Cells and modules are tasks: they wait, they are busy, or
they are done, and then their value means what the task means.

A task that fails is tried again later, and then makes the same things once more. So the things that it made the first
time have to be out of reach by then. While a task is busy, nothing has access to what comes from it but what comes
from it as well (`Near`): then the failure of the task leaves nothing behind that is still of use, and it may be
dropped from the map.

**Results.** A world stays one if things are made (`Valid.extend`), if a task begins (`Valid.begin`), if it comes to
its value (`Valid.finish`) and if it comes to nothing (`Valid.abort`).
-/
namespace LazyModules

inductive Progress where
  | waiting
  | busy
  | done (v : Value)

def Cell.progress : Cell Job Value → Progress
  | .waiting _ => .waiting
  | .busy _ => .busy
  | .done _ v => .done v

def Session.progress (s : Session) (address : String) : Progress :=
  match Table.find? s.values address with
  | some v => .done v
  | none => if address ∈ s.evaluating then .busy else .waiting

namespace Meaning

open Engine

/-! ## Programs and their values -/

/-- A program that has the modules that the texts loaded so far hold, and none where a text holds none. -/
def Compat (c : Config) (P : Program) (s : Session) : Prop :=
  ∀ a points, Table.find? s.library.cache.loaded a = some (.text points) → P a = moduleOf c a (Text.legible points)

/-- The program that the texts loaded so far hold. -/
def ofLoaded (c : Config) (s : Session) : Program := fun a =>
  match Table.find? s.library.cache.loaded a with
  | some (.text points) => moduleOf c a (Text.legible points)
  | _ => none

theorem compat_ofLoaded (c : Config) (s : Session) : Compat c (ofLoaded c s) s := by
  intro a points ha
  simp only [ofLoaded, ha]

section Families

variable {α : Type}

/-- All but the first members of a family of courses have a certain result, and no member has another one. -/
structure Arrives (y : Nat → Course α) (p : Place) (r : α × Place) : Prop where
  late : ∃ n, ∀ d ≥ n, y d p = some r
  only : ∀ {d r'}, y d p = some r' → r' = r

end Families

/-- A question has an answer at a depth. -/
def Succeeds (P : Program) (d : Nat) (q : Question) : Prop := ∃ p r, answer P d q p = some r

/-- The value that a question comes to, wherever it is asked. -/
def Comes (P : Program) (q : Question) (b : Value) : Prop := ∀ p, Arrives (fun d => answer P d q) p (b, p)

/-! ## Tasks -/

def Question.origin : Question → Origin
  | .expr _ _ => .outside
  | .slot x => x.origin
  | .module a => .module a

/-- The cells that a map knows and all modules are tasks. -/
inductive Map.Task (m : Map) (h : EngineState) : Question → Progress → Prop where
  | cell {i : Nat} {x : Slot} {y : Cell Job LazyModules.Value} (hx : m.cell i x) (hy : h.cells[i]? = some y)
      {p : Progress} (hp : y.progress = p) : Task m h (.slot x) p
  | module (a : String) {p : Progress} (hp : h.rest.outer.progress a = p) : Task m h (.module a) p

/-- An evaluation that has begun and not ended. -/
def Map.Open (m : Map) (h : EngineState) (o : Origin) : Prop := ∃ q, m.Task h q .busy ∧ q.origin = o

/-- Every open evaluation that `x` comes from is one that `o` comes from. -/
def Map.Near (m : Map) (h : EngineState) (o x : Origin) : Prop := ∀ y, m.Open h y → x.From y → o.From y

theorem Map.Near.trans {m : Map} {h : EngineState} {o x y : Origin} (hx : m.Near h o x) (hy : m.Near h x y) :
    m.Near h o y :=
  fun z hz hyz => hx z hz (hy z hz hyz)

/-- A question that has an answer only if a busy task has one at a smaller depth. -/
def Map.Doomed (c : Config) (m : Map) (h : EngineState) (q : Question) : Prop :=
  ∀ {P}, Compat c P h.rest.outer → ∀ {d}, Succeeds P d q → ∃ q', m.Task h q' .busy ∧ ∃ d' < d, Succeeds P d' q'

/-- What cells stand for comes from a module. -/
def Origin.Inner : Origin → Prop
  | .made _ _ | .declared _ _ => True
  | _ => False

/-- A scope has a slot for every name that its meaning has one for, whatever the rest of the program is. -/
structure Suits (c : Config) (m : Map) (h : EngineState) (s : LazyModules.Scope) (t : Scope) : Prop where
  frames : ∀ k ∈ s.frames, k < h.rest.frames.size
  lookup : ∀ name, ∃ found, (∀ {P}, Compat c P h.rest.outer → t.lookup P name = found) ∧
    Option.Rel (fun b y => ∃ x, b = some x ∧ SlotRel m (fun _ => True) x y) (s.lookup? h.rest.frames name) found

/-- A map says the truth about an engine. An evaluation is under way, and for each one it is known how many things it
has made. -/
structure Valid (c : Config) (m : Map) (h : EngineState) (current : Origin) (count : Origin → Nat) : Prop where
  ident_lt : ∀ {i o}, m.ident i o → i < h.rest.nextId
  ident_used : ∀ {i o}, m.ident i o → m.used o
  ident_unique : ∀ {i j o o'}, m.ident i o → m.ident j o' → (i = j ↔ o = o')
  cell_used : ∀ {i x}, m.cell i x → x.All m.used
  cell_unique : ∀ {i j x y}, m.cell i x → m.cell j y → i = j ∨ x.origin = y.origin → i = j ∧ x = y
  cell_inner : ∀ {i x}, m.cell i x → x.origin.Inner
  cell_job : ∀ {i x}, m.cell i x → ∃ y, h.cells[i]? = some y ∧ JobRel m y.job x
  /-- what a cell needs is out of reach if the cell is -/
  cell_near : ∀ {i x}, m.cell i x → x.All (m.Near h x.origin)
  scope_used : ∀ {s t}, m.scope s t → t.All m.used
  scope_suits : ∀ {s t}, m.scope s t → Suits c m h s t
  /-- nothing comes from what has not begun -/
  waiting : ∀ {q o}, m.Task h q .waiting → m.used o → ¬ o.From q.origin
  done : ∀ {q v}, m.Task h q (.done v) → ∃ b, ValueRel m (m.Near h q.origin) v b ∧
    ∀ {P}, Compat c P h.rest.outer → Comes P q b
  /-- nothing comes from what has not been made -/
  unmade : ∀ {x n o}, x = .outside ∨ m.Open h x → count x ≤ n → m.used o → o ≠ .made x n ∧ ¬ o.From (.made x n)
  current : current = .outside ∨ m.Open h current
  evaluating : ∀ {a}, a ∈ h.rest.outer.evaluating → Table.find? h.rest.outer.values a = none
  said : ∀ {a x}, Table.find? h.rest.outer.modules a = some x → ∃ points,
    Table.find? h.rest.outer.library.cache.loaded a = some (.text points) ∧ moduleOf c a (Text.legible points) = some x

namespace Valid

variable {c : Config} {m m' : Map} {h h' : EngineState} {current : Origin} {count count' : Origin → Nat}

theorem origin_used (hv : Valid c m h current count) {i : Nat} {x : Slot} (hx : m.cell i x) : m.used x.origin := by
  obtain ⟨y, -, hjob⟩ := hv.cell_job hx
  exact hjob.origin (hv.cell_used hx)

/-- Tasks with the same origin are the same, and as far. -/
theorem task_unique (hv : Valid c m h current count) {q q' : Question} {p p' : Progress} (hq : m.Task h q p)
    (hq' : m.Task h q' p') (horigin : q.origin = q'.origin) : q = q' ∧ p = p' := by
  cases hq with
  | @cell i x y hx hy _ hp =>
    cases hq' with
    | @cell j x' y' hx' hy' _ hp' =>
      obtain ⟨rfl, rfl⟩ := hv.cell_unique hx hx' (.inr horigin)
      obtain rfl := Option.some.inj (hy.symm.trans hy')
      exact ⟨rfl, hp.symm.trans hp'⟩
    | module a hp' =>
      have hinner := hv.cell_inner hx
      rw [show x.origin = .module a from horigin] at hinner
      exact hinner.elim
  | module a hp =>
    cases hq' with
    | @cell j x' y' hx' hy' _ hp' =>
      have hinner := hv.cell_inner hx'
      rw [← show Origin.module a = x'.origin from horigin] at hinner
      exact hinner.elim
    | module a' hp' =>
      obtain rfl := Origin.module.inj horigin
      exact ⟨rfl, hp.symm.trans hp'⟩

theorem origin_ne_outside (hv : Valid c m h current count) {q : Question} {p : Progress} (hq : m.Task h q p) :
    q.origin ≠ .outside := by
  cases hq with
  | @cell i x y hx _ _ _ =>
    intro heq
    have hinner := hv.cell_inner hx
    rw [show x.origin = .outside from heq] at hinner
    exact hinner
  | module a _ => simp [Question.origin]

/-- An evaluation that is under way takes place outside, or is that of a module, or is known. -/
theorem open_cases (hv : Valid c m h current count) {o : Origin} (ho : o = .outside ∨ m.Open h o) :
    o = .outside ∨ (∃ a, o = .module a) ∨ m.used o := by
  rcases ho with ho | ⟨q, hq, rfl⟩
  · exact .inl ho
  · cases hq with
    | cell hx _ _ => exact .inr (.inr (hv.origin_used hx))
    | module a _ => exact .inr (.inl ⟨a, rfl⟩)

/-- What a map has with a property it has with another one, if that follows for everything that there is. -/
theorem carries (hv : Valid c m h current count) {r r' : Origin → Prop} (hr : ∀ o, m.used o → r o → r' o) :
    Carries m r m r' where
  ident hid ho := ⟨hid, hr _ (hv.ident_used hid) ho⟩
  cell hx hall := ⟨hx, (hv.cell_used hx).imp₂ hr hall⟩
  scope hs hall := ⟨hs, (hv.scope_used hs).imp₂ hr hall⟩

end Valid

/-! ## Making things -/

/-- More of everything, in a map and in a heap. What is new comes from origins that nothing else comes from. -/
structure Extension (c : Config) (m m' : Map) (h h' : EngineState) (count count' : Origin → Nat)
    (new : Origin → Prop) : Prop where
  le : m.Le m'
  used : ∀ {o}, m'.used o ↔ m.used o ∨ new o
  cells : ∀ {i : Nat} {y}, h.cells[i]? = some y → h'.cells[i]? = some y
  size : h.rest.frames.size ≤ h'.rest.frames.size
  frames : ∀ {k : Nat}, k < h.rest.frames.size → h'.rest.frames[k]? = h.rest.frames[k]?
  nextId : h.rest.nextId ≤ h'.rest.nextId
  outer : h'.rest.outer = h.rest.outer
  count : ∀ x, count x ≤ count' x
  ident : ∀ {i o}, m'.ident i o → m.ident i o ∨ new o ∧ h.rest.nextId ≤ i ∧ i < h'.rest.nextId
  ident_unique : ∀ {i j o o'}, m'.ident i o → m'.ident j o' → new o → new o' → (i = j ↔ o = o')
  cell : ∀ {i x}, m'.cell i x → m.cell i x ∨ new x.origin ∧ h.cells[i]? = none ∧
    (∃ job, h'.cells[i]? = some (.waiting job) ∧ JobRel m' job x) ∧ x.All m'.used ∧ x.All (m.Near h x.origin) ∧
    x.origin.Inner
  cell_unique : ∀ {i j x y}, m'.cell i x → m'.cell j y → new x.origin → new y.origin →
    i = j ∨ x.origin = y.origin → i = j ∧ x = y
  scope : ∀ {s t}, m'.scope s t → m.scope s t ∨ t.All m'.used ∧ Suits c m' h' s t
  unused : ∀ {o}, new o → ¬ m.used o
  first : ∀ {o x}, new o → m'.used x → ¬ x.From o
  waiting : ∀ {q o}, m.Task h q .waiting → new o → ¬ o.From q.origin
  unmade : ∀ {x n o}, x = .outside ∨ m.Open h x → count' x ≤ n → new o → o ≠ .made x n ∧ ¬ o.From (.made x n)

section Extending

variable {c : Config} {m m' : Map} {h h' : EngineState} {current : Origin} {count count' : Origin → Nat}
  {new : Origin → Prop}

theorem lookupIn_congr {fs fs' : Frames LazyModules.Slot} (name : String) {ks : List Nat}
    (h : ∀ k ∈ ks, fs'[k]? = fs[k]?) : Scope.lookupIn fs' name ks = Scope.lookupIn fs name ks := by
  induction ks with
  | nil => rfl
  | cons k ks ih =>
    simp only [Scope.lookupIn, Frames.frame, h k (List.mem_cons_self ..)]
    rw [ih fun k hk => h k (List.mem_cons_of_mem _ hk)]

/-- A scope has the slots that it had, if its frames are as they were. -/
theorem Suits.mono (hm : m.Le m') {s : LazyModules.Scope} {t : Scope} (hs : Suits c m h s t)
    (hsize : h.rest.frames.size ≤ h'.rest.frames.size)
    (hframes : ∀ {k : Nat}, k < h.rest.frames.size → h'.rest.frames[k]? = h.rest.frames[k]?)
    (hcompat : ∀ {P}, Compat c P h'.rest.outer → Compat c P h.rest.outer) : Suits c m' h' s t := by
  refine ⟨fun k hk => Nat.lt_of_lt_of_le (hs.frames k hk) hsize, fun name => ?_⟩
  have hsame : s.lookup? h'.rest.frames name = s.lookup? h.rest.frames name :=
    lookupIn_congr name fun k hk => hframes (hs.frames k hk)
  obtain ⟨found, hfound, hrel⟩ := hs.lookup name
  refine ⟨found, fun hP => hfound (hcompat hP), hsame ▸ optionRel_imp ?_ hrel⟩
  rintro b y ⟨x, rfl, hxy⟩
  exact ⟨x, rfl, hxy.carry (hm.carries fun _ => id)⟩

namespace Extension

theorem task (he : Extension c m m' h h' count count' new) {q : Question} {p : Progress} (hq : m'.Task h' q p)
    (hp : p ≠ .waiting) (hv : Valid c m h current count) : m.Task h q p := by
  cases hq with
  | @cell i x y hx hy _ hp' =>
    rcases he.cell hx with hx | ⟨-, -, ⟨job, hjob, -⟩, -⟩
    · obtain ⟨y', hy', -⟩ := hv.cell_job hx
      obtain rfl := Option.some.inj ((he.cells hy').symm.trans hy)
      exact .cell hx hy' hp'
    · obtain rfl := Option.some.inj (hjob.symm.trans hy)
      exact absurd hp'.symm hp
  | module a hp' => exact .module a (he.outer ▸ hp')

theorem open_iff (he : Extension c m m' h h' count count' new) (hv : Valid c m h current count) {o : Origin} :
    m'.Open h' o ↔ m.Open h o := by
  constructor
  · rintro ⟨q, hq, ho⟩
    exact ⟨q, he.task hq (by simp) hv, ho⟩
  · rintro ⟨q, hq, ho⟩
    refine ⟨q, ?_, ho⟩
    cases hq with
    | cell hx hy hp => exact .cell (he.le.cell hx) (he.cells hy) hp
    | module a hp => exact .module a (he.outer.symm ▸ hp)

/-- What waits is new, or it waited before. -/
theorem waiting_cases (he : Extension c m m' h h' count count' new) (hv : Valid c m h current count) {q : Question}
    (hq : m'.Task h' q .waiting) : m.Task h q .waiting ∨ new q.origin := by
  cases hq with
  | @cell i x y hx hy _ hp =>
    rcases he.cell hx with hx | ⟨hnew, -⟩
    · obtain ⟨y', hy', -⟩ := hv.cell_job hx
      obtain rfl := Option.some.inj ((he.cells hy').symm.trans hy)
      exact .inl (.cell hx hy' hp)
    · exact .inr hnew
  | module a hp => exact .inl (.module a (he.outer ▸ hp))

/-- An identity that was there is not the same as a new one. -/
theorem ident_apart (he : Extension c m m' h h' count count' new) (hv : Valid c m h current count) {i j : Nat}
    {o o' : Origin} (hold : m.ident i o) (hnew : new o') (hle : h.rest.nextId ≤ j) : i ≠ j ∧ o ≠ o' := by
  refine ⟨Nat.ne_of_lt (Nat.lt_of_lt_of_le (hv.ident_lt hold) hle), ?_⟩
  rintro rfl
  exact he.unused hnew (hv.ident_used hold)

theorem ident_eq_iff (he : Extension c m m' h h' count count' new) (hv : Valid c m h current count) {i j : Nat}
    {o o' : Origin} (hid : m'.ident i o) (hid' : m'.ident j o') : i = j ↔ o = o' := by
  rcases he.ident hid with hold | ⟨hnew, hle, -⟩
  · rcases he.ident hid' with hold' | ⟨hnew', hle', -⟩
    · exact hv.ident_unique hold hold'
    · obtain ⟨hne, hne'⟩ := he.ident_apart hv hold hnew' hle'
      exact iff_of_false hne hne'
  · rcases he.ident hid' with hold' | ⟨hnew', -, -⟩
    · obtain ⟨hne, hne'⟩ := he.ident_apart hv hold' hnew hle
      exact iff_of_false hne.symm hne'.symm
    · exact he.ident_unique hid hid' hnew hnew'

/-- A cell that was there is not the same as a new one. -/
theorem cell_apart (he : Extension c m m' h h' count count' new) (hv : Valid c m h current count) {i j : Nat}
    {x y : Slot} (hold : m.cell i x) (hnew : new y.origin) (hnone : h.cells[j]? = none) :
    i ≠ j ∧ x.origin ≠ y.origin := by
  constructor
  · rintro rfl
    obtain ⟨z, hz, -⟩ := hv.cell_job hold
    rw [hnone] at hz
    cases hz
  · intro heq
    exact he.unused hnew (heq ▸ hv.origin_used hold)

theorem cell_eq (he : Extension c m m' h h' count count' new) (hv : Valid c m h current count) {i j : Nat}
    {x y : Slot} (hx : m'.cell i x) (hy : m'.cell j y) (heq : i = j ∨ x.origin = y.origin) : i = j ∧ x = y := by
  rcases he.cell hx with hold | ⟨hnew, hnone, -⟩
  · rcases he.cell hy with hold' | ⟨hnew', hnone', -⟩
    · exact hv.cell_unique hold hold' heq
    · obtain ⟨hne, hne'⟩ := he.cell_apart hv hold hnew' hnone'
      exact (heq.elim hne hne').elim
  · rcases he.cell hy with hold' | ⟨hnew', -⟩
    · obtain ⟨hne, hne'⟩ := he.cell_apart hv hold' hnew hnone
      exact (heq.elim hne.symm hne'.symm).elim
    · exact he.cell_unique hx hy hnew hnew' heq

end Extension

/-- An engine with more things in it. -/
theorem Valid.extend (hv : Valid c m h current count) (he : Extension c m m' h h' count count' new) :
    Valid c m' h' current count' := by
  have hopen (o : Origin) := he.open_iff hv (o := o)
  have hnear (o x : Origin) (hx : m.Near h o x) : m'.Near h' o x := fun y hy => hx y ((hopen y).mp hy)
  have hcompat {P : Program} (hP : Compat c P h'.rest.outer) : Compat c P h.rest.outer := he.outer ▸ hP
  refine
    { ident_lt := ?_, ident_used := ?_, ident_unique := he.ident_eq_iff hv, cell_used := ?_,
      cell_unique := he.cell_eq hv, cell_inner := ?_, cell_job := ?_, cell_near := ?_, scope_used := ?_,
      scope_suits := ?_, waiting := ?_, done := ?_, unmade := ?_, current := hv.current.imp id (hopen current).mpr,
      evaluating := he.outer ▸ hv.evaluating, said := he.outer ▸ hv.said }
  · intro i o hid
    rcases he.ident hid with hid | ⟨-, -, hlt⟩
    · exact Nat.lt_of_lt_of_le (hv.ident_lt hid) he.nextId
    · exact hlt
  · intro i o hid
    rcases he.ident hid with hid | ⟨hnew, -, -⟩
    · exact he.le.used (hv.ident_used hid)
    · exact he.used.mpr (.inr hnew)
  · intro i x hx
    rcases he.cell hx with hx | ⟨-, -, -, hused, -⟩
    · exact (hv.cell_used hx).imp fun _ => he.le.used
    · exact hused
  · intro i x hx
    rcases he.cell hx with hx | ⟨-, -, -, -, -, hinner⟩
    · exact hv.cell_inner hx
    · exact hinner
  · intro i x hx
    rcases he.cell hx with hx | ⟨-, -, ⟨job, hjob, hrel⟩, -⟩
    · obtain ⟨y, hy, hrel⟩ := hv.cell_job hx
      exact ⟨y, he.cells hy, hrel.carry (fun hs _ => he.le.scope hs) (hv.cell_used hx)⟩
    · exact ⟨_, hjob, hrel⟩
  · intro i x hx
    rcases he.cell hx with hx | ⟨-, -, -, -, hx, -⟩
    · exact (hv.cell_near hx).imp (hnear _)
    · exact hx.imp (hnear _)
  · intro s t hs
    rcases he.scope hs with hs | ⟨hused, -⟩
    · exact (hv.scope_used hs).imp fun _ => he.le.used
    · exact hused
  · intro s t hs
    rcases he.scope hs with hs | ⟨-, hsuits⟩
    · exact (hv.scope_suits hs).mono he.le he.size he.frames hcompat
    · exact hsuits
  · intro q o hq ho
    rcases he.waiting_cases hv hq with hq | hnew
    · rcases he.used.mp ho with ho | ho
      · exact hv.waiting hq ho
      · exact he.waiting hq ho
    · exact he.first hnew ho
  · intro q v hq
    obtain ⟨b, hb, hcomes⟩ := hv.done (he.task hq (by simp) hv)
    exact ⟨b, hb.carry (he.le.carries (hnear _)), fun hP => hcomes (hcompat hP)⟩
  · intro x n o hx hn ho
    have hx := hx.imp id (hopen x).mp
    rcases he.used.mp ho with ho | ho
    · exact hv.unmade hx (Nat.le_trans (he.count x) hn) ho
    · exact he.unmade hx hn ho

end Extending

/-! ## Other sessions -/

/-- Another session in which modules have come as far. Texts and modules may have been read in the meantime. -/
structure Rewords (c : Config) (s s' : Session) : Prop where
  values : s'.values = s.values
  evaluating : s'.evaluating = s.evaluating
  loaded : Table.Gains s.library.cache.loaded s'.library.cache.loaded
  modules : ∀ {a x}, Table.find? s'.modules a = some x → Table.find? s.modules a = some x ∨ ∃ points,
    Table.find? s'.library.cache.loaded a = some (.text points) ∧ moduleOf c a (Text.legible points) = some x

section Rewording

variable {c : Config} {m : Map} {h : EngineState} {current : Origin} {count : Origin → Nat} {s : Session}

theorem Rewords.task_iff (hs : Rewords c h.rest.outer s) {q : Question} {p : Progress} :
    m.Task (Heap.setOuter h s) q p ↔ m.Task h q p := by
  have hprogress (a : String) : s.progress a = h.rest.outer.progress a := by
    simp only [Session.progress, hs.values, hs.evaluating]
  constructor
  · intro hq
    cases hq with
    | @cell i x y hx hy _ hp =>
      have hy : h.cells[i]? = some y := hy
      exact .cell hx hy hp
    | module a hp => exact .module a ((hprogress a).symm.trans hp)
  · intro hq
    cases hq with
    | @cell i x y hx hy _ hp =>
      have hy : (Heap.setOuter h s).cells[i]? = some y := hy
      exact .cell hx hy hp
    | module a hp => exact .module a ((hprogress a).trans hp)

theorem Rewords.compat {s s' : Session} (hs : Rewords c s s') {P : Program} (hP : Compat c P s') : Compat c P s :=
  fun a points ha => hP a points (hs.loaded a _ ha)

/-- An engine with another session. -/
theorem Valid.setOuter (hv : Valid c m h current count) (hs : Rewords c h.rest.outer s) :
    Valid c m (Heap.setOuter h s) current count := by
  have hopen (o : Origin) : m.Open (Heap.setOuter h s) o ↔ m.Open h o := by simp only [Map.Open, hs.task_iff]
  have hnear (o x : Origin) (hx : m.Near h o x) : m.Near (Heap.setOuter h s) o x := fun y hy => hx y ((hopen y).mp hy)
  refine
    { hv with
      cell_near := fun hx => (hv.cell_near hx).imp (hnear _)
      scope_suits := fun hst => (hv.scope_suits hst).mono ⟨id, id, id, id⟩ (Nat.le_refl _) (fun _ => rfl) hs.compat
      waiting := fun hq => hv.waiting (hs.task_iff.mp hq)
      done := ?_
      unmade := fun hx => hv.unmade (hx.imp id (hopen _).mp)
      current := hv.current.imp id (hopen _).mpr
      evaluating := ?_
      said := ?_ }
  · intro q v hq
    obtain ⟨b, hb, hcomes⟩ := hv.done (hs.task_iff.mp hq)
    exact ⟨b, hb.carry (hv.carries fun o _ => hnear _ o), fun hP => hcomes (hs.compat hP)⟩
  · intro a ha
    have ha : a ∈ s.evaluating := ha
    rw [hs.evaluating] at ha
    exact (congrArg (Table.find? · a) hs.values).trans (hv.evaluating ha)
  · intro a x hx
    rcases hs.modules hx with hx | hsaid
    · obtain ⟨points, hpoints, hmodule⟩ := hv.said hx
      exact ⟨points, hs.loaded a _ hpoints, hmodule⟩
    · exact hsaid

end Rewording

/-! ## Beginning, finishing and aborting -/

/-- A task has come so far, and nothing else is different. -/
structure Turns (m : Map) (q : Question) (p : Progress) (h h' : EngineState) : Prop where
  frames : h'.rest.frames = h.rest.frames
  nextId : h'.rest.nextId = h.rest.nextId
  jobs : ∀ {i : Nat} {y}, h.cells[i]? = some y → ∃ y', h'.cells[i]? = some y' ∧ y'.job = y.job
  loaded : Table.Gains h.rest.outer.library.cache.loaded h'.rest.outer.library.cache.loaded
  modules : h'.rest.outer.modules = h.rest.outer.modules
  evaluating : ∀ {a}, a ∈ h'.rest.outer.evaluating → Table.find? h'.rest.outer.values a = none
  now : m.Task h' q p
  task : ∀ {q' p'}, m.Task h' q' p' → q' = q ∧ p' = p ∨ q' ≠ q ∧ m.Task h q' p'
  others : ∀ {q' p'}, q' ≠ q → m.Task h q' p' → m.Task h' q' p'

section Turning

variable {c : Config} {m : Map} {h h' : EngineState} {current : Origin} {count : Origin → Nat} {q : Question}
  {p : Progress}

theorem Turns.compat (ht : Turns m q p h h') {P : Program} (hP : Compat c P h'.rest.outer) :
    Compat c P h.rest.outer :=
  fun a points ha => hP a points (ht.loaded a _ ha)

/-- Whatever was the case with a cell's job still is. -/
theorem Turns.cell_job (ht : Turns m q p h h') (hv : Valid c m h current count) {i : Nat} {x : Slot}
    (hx : m.cell i x) : ∃ y, h'.cells[i]? = some y ∧ JobRel m y.job x := by
  obtain ⟨y, hy, hjob⟩ := hv.cell_job hx
  obtain ⟨y', hy', hsame⟩ := ht.jobs hy
  exact ⟨y', hy', hsame ▸ hjob⟩

theorem Turns.suits (ht : Turns m q p h h') {s : LazyModules.Scope} {t : Scope} (hs : Suits c m h s t) :
    Suits c m h' s t :=
  hs.mono ⟨id, id, id, id⟩ (ht.frames ▸ Nat.le_refl _) (fun _ => by rw [ht.frames]) ht.compat

theorem Turns.said (ht : Turns m q p h h') (hv : Valid c m h current count) {a : String} {x : Module}
    (hx : Table.find? h'.rest.outer.modules a = some x) : ∃ points,
      Table.find? h'.rest.outer.library.cache.loaded a = some (.text points) ∧
        moduleOf c a (Text.legible points) = some x := by
  obtain ⟨points, hpoints, hmodule⟩ := hv.said (ht.modules ▸ hx)
  exact ⟨points, ht.loaded a _ hpoints, hmodule⟩

/-- A task begins. Nothing comes from it yet. -/
theorem Valid.begin (hv : Valid c m h current count) (hq : m.Task h q .waiting) (ht : Turns m q .busy h h') :
    Valid c m h' q.origin (Function.update count q.origin 0) := by
  have hopen {x : Origin} (hx : m.Open h' x) : x = q.origin ∨ m.Open h x := by
    obtain ⟨q', hq', rfl⟩ := hx
    rcases ht.task hq' with ⟨rfl, -⟩ | ⟨-, hq'⟩
    · exact .inl rfl
    · exact .inr ⟨q', hq', rfl⟩
  have hnear (o x : Origin) (hx : m.used x) (hnear : m.Near h o x) : m.Near h' o x := by
    intro y hy hxy
    rcases hopen hy with rfl | hy
    · exact absurd hxy (hv.waiting hq hx)
    · exact hnear y hy hxy
  have hold {q' : Question} {p' : Progress} (hq' : m.Task h' q' p') (hp' : p' ≠ .busy) : m.Task h q' p' := by
    rcases ht.task hq' with ⟨-, rfl⟩ | ⟨-, hq'⟩
    · exact absurd rfl hp'
    · exact hq'
  refine
    { ident_lt := fun hid => ht.nextId ▸ hv.ident_lt hid, ident_used := hv.ident_used,
      ident_unique := hv.ident_unique, cell_used := hv.cell_used, cell_unique := hv.cell_unique,
      cell_inner := hv.cell_inner, cell_job := ht.cell_job hv, cell_near := ?_, scope_used := hv.scope_used,
      scope_suits := fun hs => ht.suits (hv.scope_suits hs), waiting := ?_, done := ?_, unmade := ?_,
      current := .inr ⟨q, ht.now, rfl⟩, evaluating := ht.evaluating, said := ht.said hv }
  · intro i x hx
    exact (hv.cell_used hx).imp₂ (hnear _) (hv.cell_near hx)
  · intro q' o hq' ho
    exact hv.waiting (hold hq' (by simp)) ho
  · intro q' v hq'
    obtain ⟨b, hb, hcomes⟩ := hv.done (hold hq' (by simp))
    exact ⟨b, hb.carry (hv.carries (hnear _)), fun hP => hcomes (ht.compat hP)⟩
  · intro x n o hx hn ho
    by_cases hself : x = q.origin
    · subst hself
      have hfrom := hv.waiting hq ho
      refine ⟨?_, fun hmade => hfrom (hmade.trans (.inl rfl))⟩
      rintro rfl
      exact hfrom (.inl rfl)
    · rw [Function.update_of_ne hself] at hn
      refine hv.unmade ?_ hn ho
      exact hx.imp id fun hx => (hopen hx).resolve_left hself

/-- A task that is no longer busy was the only one with its origin. -/
theorem Turns.open_cases (ht : Turns m q p h h') (hv : Valid c m h current count) (hq : m.Task h q .busy)
    (hp : p ≠ .busy) {x : Origin} (hx : m.Open h' x) : m.Open h x ∧ x ≠ q.origin := by
  obtain ⟨q', hq', rfl⟩ := hx
  rcases ht.task hq' with ⟨rfl, rfl⟩ | ⟨hne, hq'⟩
  · exact absurd rfl hp
  · exact ⟨⟨q', hq', rfl⟩, fun heq => hne (hv.task_unique hq' hq heq).1⟩

/-- A task comes to its value, and another one that is under way goes on. -/
theorem Valid.finish (hv : Valid c m h q.origin count) (hq : m.Task h q .busy) {v : LazyModules.Value}
    (ht : Turns m q (.done v) h h') {b : Value} (hb : ValueRel m (m.Near h (.made q.origin 0)) v b)
    (hcomes : ∀ {P}, Compat c P h.rest.outer → Comes P q b) {x : Origin} (hx : x = .outside ∨ m.Open h x)
    (hne : x ≠ q.origin) : Valid c m h' x count := by
  have hopen {y : Origin} (hy : m.Open h' y) := ht.open_cases hv hq (by simp) hy
  have hnear (o y : Origin) (hy : m.Near h o y) : m.Near h' o y := fun z hz => hy z (hopen hz).1
  refine
    { ident_lt := fun hid => ht.nextId ▸ hv.ident_lt hid, ident_used := hv.ident_used,
      ident_unique := hv.ident_unique, cell_used := hv.cell_used, cell_unique := hv.cell_unique,
      cell_inner := hv.cell_inner, cell_job := ht.cell_job hv, cell_near := fun hx => (hv.cell_near hx).imp (hnear _),
      scope_used := hv.scope_used, scope_suits := fun hs => ht.suits (hv.scope_suits hs), waiting := ?_, done := ?_,
      unmade := ?_, current := ?_, evaluating := ht.evaluating, said := ht.said hv }
  · intro q' o hq' ho
    rcases ht.task hq' with ⟨-, hp⟩ | ⟨-, hq'⟩
    · cases hp
    · exact hv.waiting hq' ho
  · intro q' v' hq'
    rcases ht.task hq' with ⟨rfl, hp⟩ | ⟨-, hq'⟩
    · obtain rfl := Progress.done.inj hp
      refine ⟨b, hb.carry (hv.carries fun o _ ho y hy hoy => ?_), fun hP => hcomes (ht.compat hP)⟩
      -- the task itself is no longer open
      exact (ho y (hopen hy).1 hoy).resolve_left (hopen hy).2.symm
    · obtain ⟨b, hb, hcomes⟩ := hv.done hq'
      exact ⟨b, hb.carry (hv.carries fun o _ => hnear _ o), fun hP => hcomes (ht.compat hP)⟩
  · intro y n o hy hn ho
    exact hv.unmade (hy.imp id fun hy => (hopen hy).1) hn ho
  · rcases hx with hx | ⟨q', hq', rfl⟩
    · exact .inl hx
    · exact .inr ⟨q', ht.others (fun heq => hne (congrArg Question.origin heq)) hq', rfl⟩

theorem Map.Task.of_drop {o : Origin} (hq : (m.drop o).Task h q p) : m.Task h q p := by
  cases hq with
  | cell hx hy hp => exact .cell hx.1 hy hp
  | module a hp => exact .module a hp

/-- What a task stands for does not come from an evaluation that was dropped. -/
theorem Valid.not_from_drop (hv : Valid c m h current count) {o : Origin} (hq : (m.drop o).Task h' q p) :
    ¬ q.origin.From o := by
  cases hq with
  | cell hx hy hp =>
    obtain ⟨_, -, hjob⟩ := hv.cell_job hx.1
    exact hjob.origin hx.2
  | module a hp => exact id

/-- A task that does not come from an evaluation outlasts it. -/
theorem Valid.task_drop (hv : Valid c m h current count) {o : Origin} (ho : m.Open h o) {q' : Question}
    {p' : Progress} (hq : m.Task h' q' p') (hfrom : ¬ q'.origin.From o) : (m.drop o).Task h' q' p' := by
  cases hq with
  | @cell i x _ hx hy _ hp =>
    have hall : x.All fun y => ¬ y.From o := by
      refine (hv.cell_near hx).imp fun y hnear => ?_
      exact fun hyo => hfrom (hnear o ho hyo)
    have hx' : (m.drop o).cell i x := ⟨hx, hall⟩
    exact .cell hx' hy hp
  | module a hp => exact .module a hp

/-- A task comes to nothing. What it made is dropped, and another task that is under way goes on. -/
theorem Valid.abort (hv : Valid c m h q.origin count) (hq : m.Task h q .busy) (ht : Turns m q .waiting h h')
    (hbusy : ∀ {q'}, m.Task h q' .busy → ¬ q'.origin.From q.origin) {x : Origin}
    (hx : x = .outside ∨ m.Open h x) (hne : x ≠ q.origin) : Valid c (m.drop q.origin) h' x count := by
  have hopen {y : Origin} (hy : (m.drop q.origin).Open h' y) : m.Open h y ∧ y ≠ q.origin := by
    obtain ⟨q', hq', rfl⟩ := hy
    exact ht.open_cases hv hq (by simp) ⟨q', hq'.of_drop, rfl⟩
  have hself : m.Open h q.origin := ⟨q, hq, rfl⟩
  have hnear (o y : Origin) (hy : m.Near h o y) : (m.drop q.origin).Near h' o y := fun z hz => hy z (hopen hz).1
  refine
    { ident_lt := fun hid => ht.nextId ▸ hv.ident_lt hid.1, ident_used := fun hid => ⟨hv.ident_used hid.1, hid.2⟩,
      ident_unique := fun hid hid' => hv.ident_unique hid.1 hid'.1,
      cell_used := fun hx => (hv.cell_used hx.1).imp₂ (fun _ => And.intro) hx.2,
      cell_unique := fun hx hy => hv.cell_unique hx.1 hy.1, cell_inner := fun hx => hv.cell_inner hx.1,
      cell_job := ?_, cell_near := fun hx => (hv.cell_near hx.1).imp (hnear _),
      scope_used := fun hs => (hv.scope_used hs.1).imp₂ (fun _ => And.intro) hs.2, scope_suits := ?_, waiting := ?_,
      done := ?_, unmade := ?_, current := ?_, evaluating := ht.evaluating, said := ht.said hv }
  · intro i y hy
    obtain ⟨z, hz, hjob⟩ := ht.cell_job hv hy.1
    have hscope {s : LazyModules.Scope} {t : Scope} (hs : m.scope s t) (hall : t.All fun o => ¬ o.From q.origin) :
        (m.drop q.origin).scope s t := ⟨hs, hall⟩
    exact ⟨z, hz, hjob.carry hscope hy.2⟩
  · intro s t hs
    obtain ⟨hframes, hlookup⟩ := ht.suits (hv.scope_suits hs.1)
    refine ⟨hframes, fun name => ?_⟩
    obtain ⟨found, hfound, hrel⟩ := hlookup name
    refine ⟨found, hfound, ?_⟩
    have hall {y : Slot} (hy : found = some y) : y.All fun o => ¬ o.From q.origin :=
      hs.2.lookup ((hfound (compat_ofLoaded c _)).trans hy)
    generalize s.lookup? h'.rest.frames name = b at hrel ⊢
    cases hrel with
    | none => exact .none
    | some hxy =>
      obtain ⟨z, rfl, hxy⟩ := hxy
      exact .some ⟨z, rfl, (hxy.of_all (hall rfl)).carry (Map.carries_drop (fun _ => id) fun _ _ => trivial)⟩
  · intro q' o hq' ho
    rcases ht.task hq'.of_drop with ⟨rfl, -⟩ | ⟨-, hq'⟩
    · exact ho.2
    · exact hv.waiting hq' ho.1
  · intro q' v hq'
    rcases ht.task hq'.of_drop with ⟨-, hp⟩ | ⟨-, hold⟩
    · cases hp
    · obtain ⟨b, hb, hcomes⟩ := hv.done hold
      refine ⟨b, hb.carry (Map.carries_drop (fun o ho hfrom => ?_) (hnear _)), fun hP => hcomes (ht.compat hP)⟩
      exact hv.not_from_drop hq' (ho _ hself hfrom)
  · intro y n o hy hn ho
    exact hv.unmade (hy.imp id fun hy => (hopen hy).1) hn ho.1
  · rcases hx with hx | ⟨q', hq', rfl⟩
    · exact .inl hx
    · have hq'' := ht.others (fun heq => hne (congrArg Question.origin heq)) hq'
      exact .inr ⟨q', hv.task_drop hself hq'' (hbusy hq'), rfl⟩

end Turning

end Meaning

end LazyModules
