import LazyModules.Proofs.Walk.Correspondence

/-!
# What evaluation keeps to

A discipline says what is known of a heap, which expressions may be evaluated in it and in which scopes, and
how a computation may leave it. What a computation may do to the heap can depend on how it ends: with a
result, with an error of a certain kind, or for want of depth.

`Keeps h V c c'` says that `c` keeps to the discipline from the heap `h`, that its results are as `V` says,
and that `c'` does the very same from there. Where only the first is of interest, `c'` is `c`.

**Results.** One rule for each way in which computations are put together: `Keeps.bind`, `Keeps.tryCatch`,
`Keeps.mapList`.
-/
namespace LazyModules

def Outcome.ending {ε α : Type} : Outcome ε α → Outcome ε Unit
  | .ok _ => .ok ()
  | .error e => .error e
  | .exhausted => .exhausted

/-! ## What values hold -/

section Holds

variable {P Q : Expr → Scope → Prop} {D E : Nat → Prop} {L M : String → String → String → Prop}

/-- The text of a function has a property in the scope that the function was born in. -/
def Closure.Carries (P : Expr → Scope → Prop) (f : Closure) : Prop :=
  ∃ start, P (.lambda f.params f.body start) f.scope

/-- A slot holds only code that has a property, or a cell that has another. -/
def Slot.Holds (P : Expr → Scope → Prop) (D : Nat → Prop) : Slot → Prop
  | .closure f => f.Carries P
  | .cell i => D i
  | .constant _ => True

/-- A value holds only code that has a property, and cells that have another. -/
def Value.Holds (P : Expr → Scope → Prop) (D : Nat → Prop) : Value → Prop
  | .list _ items => ∀ x ∈ items, x.Holds P D
  | .record _ fields => ∀ p ∈ fields, p.2.Holds P D
  | .function f => f.Carries P
  | .nil | .flag _ | .number _ | .text _ => True

/-- A job that is to evaluate code that has a property, or to bring an import that has another to its
value. -/
def Job.Holds (P : Expr → Scope → Prop) (L : String → String → String → Prop) : Job → Prop
  | .expr e s => P e s
  | .load importer name target => L importer name target

/-- A slot carries only code that has a property. A cell carries none by itself. -/
abbrev Slot.Carries (P : Expr → Scope → Prop) : Slot → Prop := Slot.Holds P fun _ => True

abbrev Value.Carries (P : Expr → Scope → Prop) : Value → Prop := Value.Holds P fun _ => True

abbrev Job.Carries (P : Expr → Scope → Prop) : Job → Prop := Job.Holds P fun _ _ _ => True

theorem Closure.Carries.imp (hPQ : ∀ e s, P e s → Q e s) {f : Closure} (hf : f.Carries P) : f.Carries Q := by
  obtain ⟨start, hf⟩ := hf
  exact ⟨start, hPQ _ _ hf⟩

theorem Slot.Holds.mono (hPQ : ∀ e s, P e s → Q e s) (hDE : ∀ i, D i → E i) {x : Slot} (hx : x.Holds P D) :
    x.Holds Q E := by
  cases x with
  | constant c => trivial
  | closure f => exact Closure.Carries.imp hPQ hx
  | cell i => exact hDE i hx

theorem Value.Holds.mono (hPQ : ∀ e s, P e s → Q e s) (hDE : ∀ i, D i → E i) {v : Value} (hv : v.Holds P D) :
    v.Holds Q E := by
  cases v with
  | nil | flag b | number n | text s => trivial
  | list i items => exact fun x hx => (hv x hx).mono hPQ hDE
  | record i fields => exact fun p hp => (hv p hp).mono hPQ hDE
  | function f => exact Closure.Carries.imp hPQ hv

theorem Job.Holds.mono (hPQ : ∀ e s, P e s → Q e s) (hLM : ∀ i n t, L i n t → M i n t) {job : Job}
    (hjob : job.Holds P L) : job.Holds Q M := by
  cases job with
  | expr e s => exact hPQ e s hjob
  | load importer name target => exact hLM importer name target hjob

theorem Slot.Holds.imp (hPQ : ∀ e s, P e s → Q e s) {x : Slot} (hx : x.Holds P D) : x.Holds Q D :=
  hx.mono hPQ fun _ => id

theorem Value.Holds.imp (hPQ : ∀ e s, P e s → Q e s) {v : Value} (hv : v.Holds P D) : v.Holds Q D :=
  hv.mono hPQ fun _ => id

theorem Job.Holds.imp (hPQ : ∀ e s, P e s → Q e s) {job : Job} (hjob : job.Holds P L) : job.Holds Q L :=
  hjob.mono hPQ fun _ _ _ => id

theorem Slot.holds_of_forall (hP : ∀ e s, P e s) (hD : ∀ i, D i) (x : Slot) : x.Holds P D := by
  cases x with
  | constant c => trivial
  | closure f => exact ⟨0, hP _ _⟩
  | cell i => exact hD i

theorem Value.holds_of_forall (hP : ∀ e s, P e s) (hD : ∀ i, D i) (v : Value) : v.Holds P D := by
  cases v with
  | nil | flag b | number n | text s => trivial
  | list i items => exact fun x _ => Slot.holds_of_forall hP hD x
  | record i fields => exact fun p _ => Slot.holds_of_forall hP hD p.2
  | function f => exact ⟨0, hP _ _⟩

theorem Value.Holds.constant (c : Constant) : c.value.Holds P D := by cases c <;> trivial

end Holds

/-! ## Outlooks -/

namespace Eval

/-- The term of the text that an objection to an expression is about, and its offset. -/
def pointer? : Expr → Option (String × Nat)
  | .lookup name start | .field _ name start => some (name, start)
  | .binary _ op _ start => some (op.text, start)
  | .shortcut _ op _ start => some (op.text, start)
  | .unary op _ start => some (op.text, start)
  | .call fn _ start => some (callTerm fn start)
  | .subscript _ _ start => some ("[", start)
  | .cond _ _ _ start => some ("if", start)
  | .literal _ _ | .lambda _ _ _ | .list _ _ | .record _ _ => none

/-- What is known of heaps, and how a heap may go on. -/
structure Outlook (σ : Type) where
  /-- what is known of a heap between two steps -/
  inv : Heap σ → Prop
  /-- where a computation may lead that ends in some way -/
  leads : Heap σ → Outcome Trouble Unit → Heap σ → Prop
  /-- an expression may be evaluated in a scope -/
  visit : Heap σ → Expr → Scope → Prop
  /-- the result of a cell may be demanded -/
  cell : Heap σ → Nat → Prop := fun _ _ => True
  /-- an import may be brought to its value -/
  load : Heap σ → String → String → String → Prop := fun _ _ _ _ => True

namespace Outlook

variable {σ α β : Type} (K : Outlook σ) (h : Heap σ)

/-- What is known of a function: it was born where its text may be evaluated. -/
abbrev Closure (f : Closure) : Prop := f.Carries (K.visit h)

abbrev Slot (x : Slot) : Prop := x.Holds (K.visit h) (K.cell h)

abbrev Value (v : Value) : Prop := v.Holds (K.visit h) (K.cell h)

abbrev Wanted (job : Job) : Prop := job.Holds (K.visit h) (K.load h)

/-- How a computation from `h` may end. -/
structure Ends (V : Heap σ → α → Prop) (r : Outcome Trouble α × Heap σ) : Prop where
  inv : K.inv r.2
  leads : K.leads h r.1.ending r.2
  result : ∀ a, r.1 = .ok a → V r.2 a

/-- A computation that keeps to the outlook, and another that does the same. -/
def Keeps (V : Heap σ → α → Prop) (c c' : Eval σ α) : Prop := K.inv h → c' h = c h ∧ K.Ends h V (c h)

variable {K h} {V V' : Heap σ → α → Prop} {U : Heap σ → β → Prop} {c c' : Eval σ α}

theorem Ends.error {h' : Heap σ} {e : Trouble} (hinv : K.inv h') (hleads : K.leads h (.error e) h') :
    K.Ends h V (.error e, h') :=
  ⟨hinv, hleads, nofun⟩

theorem Ends.exhausted {h' : Heap σ} (hinv : K.inv h') (hleads : K.leads h .exhausted h') :
    K.Ends h V (.exhausted, h') :=
  ⟨hinv, hleads, nofun⟩

theorem Keeps.imp (hc : K.Keeps h V c c')
    (himp : ∀ h' a, K.leads h (.ok ()) h' → V h' a → V' h' a) : K.Keeps h V' c c' := by
  intro hinv
  obtain ⟨heq, hends⟩ := hc hinv
  refine ⟨heq, hends.inv, hends.leads, fun a ha => himp _ a ?_ (hends.result a ha)⟩
  have hleads := hends.leads
  rwa [ha] at hleads

/-- A computation that is known to end well from a heap. -/
theorem Keeps.of_ends (hends : K.inv h → K.Ends h V (c h)) : K.Keeps h V c c := fun hinv => ⟨rfl, hends hinv⟩

end Outlook

/-- What evaluation keeps to by itself: an outlook that is kept by everything that `step` does on its own,
which is to make identities, cells and frames, to look up names and to object, and by cells that run. -/
structure Discipline (σ : Type) extends Outlook σ where
  refl : ∀ {h}, inv h → leads h (.ok ()) h
  trans : ∀ {h o h' h''}, leads h (.ok ()) h' → leads h' o h'' → leads h o h''
  visit_mono : ∀ {h h' e s}, leads h (.ok ()) h' → visit h e s → visit h' e s
  cell_mono : ∀ {h h' i}, leads h (.ok ()) h' → cell h i → cell h' i
  /-- what stands inside an expression is evaluated in its scope -/
  part : ∀ {h e s p}, visit h e s → p ∈ parts e → visit h p s
  /-- what a name stands for -/
  found : ∀ {h name start s x}, inv h → visit h (.lookup name start) s →
    s.lookup? h.rest.frames name = some (some x) → toOutlook.Slot h x
  freshId : ∀ {h}, inv h → toOutlook.Ends h (fun _ _ => True) (freshId h)
  alloc : ∀ {h e s}, inv h → visit h e s → toOutlook.Ends h cell (Machine.alloc (.expr e s) h)
  enter : ∀ {h params body start s xs}, inv h → visit h (.lambda params body start) s →
    (∀ x ∈ xs, toOutlook.Slot h x) → xs.length = params.length →
    toOutlook.Ends h (fun h' s' => visit h' body s') (enter s (params.zip xs) h)
  /-- a cell that has its result -/
  done : ∀ {h} {i : Nat} {job v}, inv h → cell h i → h.cells[i]? = some (.done job v) → toOutlook.Value h v
  /-- a cell that runs: it is busy while its job is done, and not afterwards, however the job ended -/
  run : ∀ {h} {i : Nat} {job}, inv h → cell h i → h.cells[i]? = some (.waiting job) →
    inv (h.setCell i (.busy job)) ∧ toOutlook.Wanted (h.setCell i (.busy job)) job ∧
    ∀ r, toOutlook.Ends (h.setCell i (.busy job)) toOutlook.Value r →
      toOutlook.Ends h toOutlook.Value (r.1, r.2.setCell i (.after job r.1))
  exhausted : ∀ {h}, inv h → leads h .exhausted h
  accident : ∀ {h} a, inv h → leads h (.error (.accident a)) h
  objection : ∀ {h e s near} {o : Objection}, inv h → visit h e s → pointer? e = some (o.term, near) →
    leads h (.error (.at s.address (.complaint (o.complaint near)))) h
  undefined : ∀ {h name start s}, inv h → visit h (.lookup name start) s →
    s.lookup? h.rest.frames name = none →
    leads h (.error (.at s.address (.undefinedName name (s.names h.rest.frames)))) h
  /-- a cell that is busy demands itself -/
  circular : ∀ {h} {i : Nat} {job}, inv h → h.cells[i]? = some (.busy job) →
    leads h (.error (.semantic (SemanticCause.circular none).raise)) h
  circularName : ∀ {h} {i : Nat} {name start s job}, inv h → visit h (.lookup name start) s →
    h.cells[i]? = some (.busy job) → leads h (.error (.at s.address (.circular (some name)))) h

namespace Discipline

variable {σ α β : Type} {K : Discipline σ} {h h' : Heap σ} {V : Heap σ → α → Prop} {U : Heap σ → β → Prop}
  {c c' : Eval σ α}

theorem closure_mono (hle : K.leads h (.ok ()) h') {f : LazyModules.Closure} (hf : K.Closure h f) :
    K.Closure h' f :=
  hf.imp fun _ _ => K.visit_mono hle

theorem slot_mono (hle : K.leads h (.ok ()) h') {x : LazyModules.Slot} (hx : K.Slot h x) : K.Slot h' x :=
  hx.mono (fun _ _ => K.visit_mono hle) fun _ => K.cell_mono hle

theorem value_mono (hle : K.leads h (.ok ()) h') {v : LazyModules.Value} (hv : K.Value h v) : K.Value h' v :=
  hv.mono (fun _ _ => K.visit_mono hle) fun _ => K.cell_mono hle

/-! ## Rules -/

theorem Keeps.pure {a : α} (ha : V h a) : K.Keeps h V (Pure.pure a) (Pure.pure a) :=
  .of_ends fun hinv => ⟨hinv, K.refl hinv, fun b hb => by cases hb; exact ha⟩

theorem Keeps.exhaust : K.Keeps h V Computation.exhaust Computation.exhaust :=
  .of_ends fun hinv => .exhausted hinv (K.exhausted hinv)

/-- A computation that fails where it may. -/
theorem Keeps.fail {e : Trouble} (he : K.inv h → K.leads h (.error e) h) :
    K.Keeps h V (Computation.fail e) (Computation.fail e) :=
  .of_ends fun hinv => .error hinv (he hinv)

theorem Keeps.accident (a : Accident) : K.Keeps h V (Eval.fail a) (Eval.fail a) := Keeps.fail (K.accident a)

theorem Keeps.bind {f f' : α → Eval σ β} (hc : K.Keeps h V c c')
    (hf : ∀ h' a, K.leads h (.ok ()) h' → V h' a → K.Keeps h' U (f a) (f' a)) :
    K.Keeps h U (c >>= f) (c' >>= f') := by
  intro hinv
  obtain ⟨heq, hends⟩ := hc hinv
  change c'.bind f' h = c.bind f h ∧ K.Ends h U (c.bind f h)
  simp only [Computation.bind, heq]
  rcases hr : c h with ⟨o, h₁⟩
  rw [hr] at hends
  cases o with
  | ok a =>
    obtain ⟨heq', hends'⟩ := hf h₁ a hends.leads (hends.result a rfl) hends.inv
    exact ⟨heq', hends'.inv, K.trans hends.leads hends'.leads, hends'.result⟩
  | error e => exact ⟨rfl, .error hends.inv hends.leads⟩
  | exhausted => exact ⟨rfl, .exhausted hends.inv hends.leads⟩

/-- A handler is looked at where the error arose, together with all that went before. -/
theorem Keeps.tryCatch {f f' : Trouble → Eval σ α} (hc : K.Keeps h V c c')
    (hf : ∀ h' e, K.inv h' → K.leads h (.error e) h' → f' e h' = f e h' ∧ K.Ends h V (f e h')) :
    K.Keeps h V (c.tryCatch f) (c'.tryCatch f') := by
  intro hinv
  obtain ⟨heq, hends⟩ := hc hinv
  simp only [Computation.tryCatch, heq]
  rcases hr : c h with ⟨o, h₁⟩
  rw [hr] at hends
  cases o with
  | error e => exact hf h₁ e hends.inv hends.leads
  | ok a | exhausted => exact ⟨rfl, hends⟩

/-- One computation for each element. What is known of the elements must not be lost on the way. -/
theorem Keeps.mapList {R : Heap σ → α → Prop} {f f' : α → Eval σ β}
    (hR : ∀ {h h' x}, K.leads h (.ok ()) h' → R h x → R h' x)
    (hU : ∀ {h h' y}, K.leads h (.ok ()) h' → U h y → U h' y)
    (hf : ∀ {h x}, R h x → K.Keeps h U (f x) (f' x)) {xs : List α} (hxs : ∀ x ∈ xs, R h x) :
    K.Keeps h (fun h' ys => (∀ y ∈ ys, U h' y) ∧ ys.length = xs.length) (mapList f xs) (mapList f' xs) := by
  induction xs generalizing h with
  | nil => exact Keeps.pure ⟨by simp, rfl⟩
  | cons x xs ih =>
    refine Keeps.bind (hf (hxs x (by simp))) fun h₁ y h₁le hy => ?_
    refine Keeps.bind (ih fun x hx => hR h₁le (hxs x (by simp [hx]))) fun h₂ ys h₂le hys => ?_
    refine Keeps.pure ⟨fun z hz => ?_, congrArg (· + 1) hys.2⟩
    rcases List.mem_cons.mp hz with rfl | hz
    · exact hU h₂le hy
    · exact hys.1 z hz

/-- One computation for each of some slots, whose results do not matter. -/
theorem Keeps.each (slot : α → LazyModules.Slot) {f f' : α → Eval σ β}
    (hf : ∀ {h x}, K.Slot h (slot x) → K.Keeps h (fun _ _ => True) (f x) (f' x)) {xs : List α}
    (hxs : ∀ x ∈ xs, K.Slot h (slot x)) :
    K.Keeps h (fun _ _ => True) (Eval.mapList f xs) (Eval.mapList f' xs) :=
  (Keeps.mapList (R := fun h x => K.Slot h (slot x)) (fun hle => slot_mono hle) (fun _ => id) hf hxs).imp
    fun _ _ _ _ => trivial

end Discipline

end Eval

end LazyModules
