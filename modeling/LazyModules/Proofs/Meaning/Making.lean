import LazyModules.Proofs.Meaning.Worlds
import LazyModules.Proofs.Walk.Heap

/-!
# Making things

Evaluation makes identities, cells and frames. Each time the map tells what is new, and the world has come to a later
one (`World.Le`): nothing that was known is forgotten, and the same tasks are busy.

**Results.** `World.extend`, `World.le_extend`: a world with more things in it comes after the world without them.
`World.extension_name`, `World.extension_alloc`, `World.extension_frame`: an identity, a cell and a frame more.
-/
namespace LazyModules.Meaning

open Engine

/-- An engine, and a map that says the truth about it. What has failed cannot succeed unless a busy task does. -/
structure World (c : Config) where
  map : Map
  heap : EngineState
  current : Origin
  count : Origin → Nat
  valid : Valid c map heap current count
  failed : ∀ {a}, a ∈ heap.rest.outer.failed → map.Doomed c heap (.module a)

variable {c : Config}

namespace World

section Parts

variable (w : World c)

abbrev session : Session := w.heap.rest.outer

abbrev Task (q : Question) (p : Progress) : Prop := w.map.Task w.heap q p

/-- Where the evaluation is that is under way. -/
def place : Place := ⟨w.current, w.count w.current⟩

/-- An evaluation that has begun and not ended, or that takes place outside. -/
def Active (o : Origin) : Prop := o = .outside ∨ w.map.Open w.heap o

/-- What the evaluation that is under way may have access to. -/
def Near (o : Origin) : Prop := w.map.Near w.heap (.made w.current 0) o

/-- A slot at hand, and what it stands for. -/
abbrev SlotRel : LazyModules.Slot → Slot → Prop := Meaning.SlotRel w.map w.Near

abbrev ValueRel : LazyModules.Value → Value → Prop := Meaning.ValueRel w.map w.Near

def ScopeRel (s : LazyModules.Scope) (t : Scope) : Prop := w.map.scope s t ∧ t.All w.Near

end Parts

/-- The second world is the first one or comes after it. The same tasks are busy and the same evaluation is under
way. -/
structure Le (w w' : World c) : Prop where
  map : w.map.Le w'.map
  busy : ∀ {q}, w'.Task q .busy ↔ w.Task q .busy
  jobs : ∀ {i : Nat} {y}, w.heap.cells[i]? = some y → ∃ y', w'.heap.cells[i]? = some y' ∧ y'.job = y.job
  evaluating : w'.session.evaluating = w.session.evaluating
  current : w'.current = w.current
  count : ∀ {x}, x ≠ w.current → w.Active x → w'.count x = w.count x
  loaded : Table.Gains w.session.library.cache.loaded w'.session.library.cache.loaded
  failed : ∀ {a}, a ∈ w.session.failed → a ∈ w'.session.failed

variable {w w' w'' : World c}

namespace Le

theorem refl (w : World c) : w.Le w where
  map := ⟨id, id, id, id⟩
  busy := Iff.rfl
  jobs hy := ⟨_, hy, rfl⟩
  evaluating := rfl
  current := rfl
  count _ _ := rfl
  loaded := .refl _
  failed := id

theorem open_iff (h : w.Le w') {o : Origin} : w'.map.Open w'.heap o ↔ w.map.Open w.heap o := by
  simp only [Map.Open, h.busy]

theorem active_iff (h : w.Le w') {o : Origin} : w'.Active o ↔ w.Active o := or_congr Iff.rfl h.open_iff

theorem trans (h : w.Le w') (h' : w'.Le w'') : w.Le w'' where
  map := ⟨fun hid => h'.map.ident (h.map.ident hid), fun hx => h'.map.cell (h.map.cell hx),
    fun hs => h'.map.scope (h.map.scope hs), fun ho => h'.map.used (h.map.used ho)⟩
  busy := h'.busy.trans h.busy
  jobs hy := by
    obtain ⟨y', hy', hjob⟩ := h.jobs hy
    obtain ⟨y'', hy'', hjob'⟩ := h'.jobs hy'
    exact ⟨y'', hy'', hjob'.trans hjob⟩
  evaluating := h'.evaluating.trans h.evaluating
  current := h'.current.trans h.current
  count hne hx := (h'.count (h.current ▸ hne) (h.active_iff.mpr hx)).trans (h.count hne hx)
  loaded := h.loaded.trans h'.loaded
  failed ha := h'.failed (h.failed ha)

theorem near_iff (h : w.Le w') {o : Origin} : w'.Near o ↔ w.Near o := by
  simp only [Near, Map.Near, h.open_iff, h.current]

theorem compat (h : w.Le w') {P : Program} (hP : Compat c P w'.session) : Compat c P w.session :=
  fun a points ha => hP a points (h.loaded a _ ha)

theorem carries (h : w.Le w') : Carries w.map w.Near w'.map w'.Near :=
  h.map.carries fun _ => h.near_iff.mpr

theorem slotRel (h : w.Le w') {x : LazyModules.Slot} {y : Slot} (hxy : w.SlotRel x y) : w'.SlotRel x y :=
  hxy.carry h.carries

theorem valueRel (h : w.Le w') {a : LazyModules.Value} {b : Value} (hab : w.ValueRel a b) : w'.ValueRel a b :=
  hab.carry h.carries

theorem scopeRel (h : w.Le w') {s : LazyModules.Scope} {t : Scope} (hs : w.ScopeRel s t) : w'.ScopeRel s t :=
  h.carries.scope hs.1 hs.2

end Le

/-! ## More things -/

section Extended

variable {m' : Map} {h' : EngineState} {count' : Origin → Nat} {new : Origin → Prop}

theorem task_extend (he : Extension c w.map m' w.heap h' w.count count' new) {q : Question} :
    m'.Task h' q .busy ↔ w.Task q .busy := by
  refine ⟨fun hq => he.task hq (by simp) w.valid, fun hq => ?_⟩
  cases hq with
  | cell hx hy hp => exact .cell (he.le.cell hx) (he.cells hy) hp
  | module a hp => exact .module a (he.outer.symm ▸ hp)

/-- A world with more things in it. -/
def extend (w : World c) (he : Extension c w.map m' w.heap h' w.count count' new) : World c where
  map := m'
  heap := h'
  current := w.current
  count := count'
  valid := w.valid.extend he
  failed ha := by
    intro P hP d hd
    rw [he.outer] at ha hP
    obtain ⟨q, hq, hd'⟩ := w.failed ha hP hd
    exact ⟨q, (task_extend he).mpr hq, hd'⟩

theorem le_extend (he : Extension c w.map m' w.heap h' w.count count' new)
    (hcount : ∀ x, x ≠ w.current → count' x = w.count x) : w.Le (w.extend he) where
  map := he.le
  busy := task_extend he
  jobs hy := ⟨_, he.cells hy, rfl⟩
  evaluating := congrArg Session.evaluating he.outer
  current := rfl
  count hne _ := hcount _ hne
  loaded := by
    rw [show (w.extend he).session = w.session from he.outer]
    exact .refl _
  failed ha := by
    rwa [show (w.extend he).session = w.session from he.outer]

end Extended

/-- What the evaluation that is under way makes next. -/
def next (w : World c) : Origin := .made w.current (w.count w.current)

/-- One thing more has been made. -/
def counted (w : World c) : Origin → Nat := Function.update w.count w.current (w.count w.current + 1)

theorem count_le_counted (w : World c) (x : Origin) : w.count x ≤ w.counted x := by
  by_cases hx : x = w.current
  · simp [counted, hx]
  · simp [counted, hx]

theorem near_next (w : World c) : w.Near w.next := fun _ _ h => h

theorem next_unused (w : World c) : ¬ w.map.used w.next :=
  fun h => (w.valid.unmade w.valid.current (Nat.le_refl _) h).1 rfl

theorem next_first (w : World c) {o : Origin} (ho : w.map.used o ∨ o = w.next) : ¬ o.From w.next := by
  rcases ho with ho | rfl
  · exact (w.valid.unmade w.valid.current (Nat.le_refl _) ho).2
  · exact w.next.not_from_self

theorem next_waiting (w : World c) {q : Question} (hq : w.map.Task w.heap q .waiting) : ¬ w.next.From q.origin := by
  rintro (heq | hfrom)
  · rcases w.valid.current with hcurrent | ⟨q', hq', hcurrent⟩
    · exact w.valid.origin_ne_outside hq (heq.symm.trans hcurrent)
    · cases (w.valid.task_unique hq' hq (hcurrent.trans heq)).2
  · rcases w.valid.open_cases w.valid.current with hcurrent | ⟨a, hcurrent⟩ | hused
    · rw [hcurrent] at hfrom
      exact hfrom
    · rw [hcurrent] at hfrom
      exact hfrom
    · exact w.valid.waiting hq hused hfrom

theorem next_unmade (w : World c) {x : Origin} {n : Nat} (hx : w.Active x) (hn : w.counted x ≤ n) :
    w.next ≠ .made x n ∧ ¬ w.next.From (.made x n) := by
  constructor
  · intro heq
    obtain ⟨rfl, rfl⟩ := Origin.made.inj heq
    rw [counted, Function.update_self] at hn
    omega
  · rcases w.valid.open_cases w.valid.current with hcurrent | ⟨a, hcurrent⟩ | hused
    · rw [next, hcurrent]
      rintro (heq | hfrom)
      · cases heq
      · exact hfrom
    · rw [next, hcurrent]
      rintro (heq | hfrom)
      · cases heq
      · exact hfrom
    · have hunmade := w.valid.unmade hx (Nat.le_trans (w.count_le_counted x) hn) hused
      exact not_or.mpr hunmade

theorem counted_of_ne (w : World c) {x : Origin} (hx : x ≠ w.current) : w.counted x = w.count x :=
  Function.update_of_ne hx _ _

/-- Something has been made that nobody has to remember. -/
theorem extension_skip (w : World c) :
    Extension c w.map { w.map with used := fun o => w.map.used o ∨ o = w.next } w.heap w.heap w.count w.counted
      (· = w.next) where
  le := ⟨id, id, id, .inl⟩
  used := Iff.rfl
  cells := id
  size := Nat.le_refl _
  frames _ := rfl
  nextId := Nat.le_refl _
  outer := rfl
  count := w.count_le_counted
  ident := .inl
  ident_unique hid _ ho _ := absurd (w.valid.ident_used hid) (ho ▸ w.next_unused)
  cell := .inl
  cell_unique hx _ ho _ _ := absurd (w.valid.origin_used hx) (ho ▸ w.next_unused)
  scope := .inl
  unused ho := ho ▸ w.next_unused
  first ho hx := ho ▸ w.next_first hx
  waiting hq ho := ho ▸ w.next_waiting hq
  unmade hx hn ho := ho ▸ w.next_unmade hx hn

/-- An identity that is not remembered. -/
theorem extension_useId (w : World c) :
    Extension c w.map w.map w.heap (Heap.useId w.heap) w.count w.count fun _ => False where
  le := ⟨id, id, id, id⟩
  used := (or_false _).symm ▸ Iff.rfl
  cells := id
  size := Nat.le_refl _
  frames _ := rfl
  nextId := Nat.le_succ _
  outer := rfl
  count _ := Nat.le_refl _
  ident := .inl
  ident_unique _ _ ho _ := ho.elim
  cell := .inl
  cell_unique _ _ ho _ _ := ho.elim
  scope := .inl
  unused := False.elim
  first := False.elim
  waiting _ ho := ho.elim
  unmade _ _ ho := ho.elim

/-- The next thing is what the next identity stands for. -/
def mapName (w : World c) : Map :=
  { w.map with
    ident := fun i o => w.map.ident i o ∨ i = w.heap.rest.nextId ∧ o = w.next
    used := fun o => w.map.used o ∨ o = w.next }

theorem extension_name (w : World c) :
    Extension c w.map w.mapName w.heap (Heap.useId w.heap) w.count w.counted (· = w.next) where
  le := ⟨.inl, id, id, .inl⟩
  used := Iff.rfl
  cells := id
  size := Nat.le_refl _
  frames _ := rfl
  nextId := Nat.le_succ _
  outer := rfl
  count := w.count_le_counted
  ident := by
    rintro i o (hid | ⟨rfl, rfl⟩)
    · exact .inl hid
    · exact .inr ⟨rfl, Nat.le_refl _, Nat.lt_succ_self _⟩
  ident_unique := by
    rintro i j o o' (hid | ⟨rfl, -⟩) (hid' | ⟨rfl, -⟩) rfl rfl
    · exact absurd (w.valid.ident_used hid) w.next_unused
    · exact absurd (w.valid.ident_used hid) w.next_unused
    · exact absurd (w.valid.ident_used hid') w.next_unused
    · exact ⟨fun _ => rfl, fun _ => rfl⟩
  cell := .inl
  cell_unique hx _ ho _ _ := absurd (w.valid.origin_used hx) (ho ▸ w.next_unused)
  scope := .inl
  unused ho := ho ▸ w.next_unused
  first ho hx := ho ▸ w.next_first hx
  waiting hq ho := ho ▸ w.next_waiting hq
  unmade hx hn ho := ho ▸ w.next_unmade hx hn

/-- The next thing is what the next cell stands for: an expression that waits in a scope. -/
def mapCell (w : World c) (e : Expr) (t : Scope) : Map :=
  { w.map with
    cell := fun i x => w.map.cell i x ∨ i = w.heap.cells.size ∧ x = .thunk w.next e t
    used := fun o => w.map.used o ∨ o = w.next }

theorem extension_alloc (w : World c) {s : LazyModules.Scope} {t : Scope} (hs : w.ScopeRel s t) (e : Expr) :
    Extension c w.map (w.mapCell e t) w.heap (Heap.pushCell w.heap (.expr e s)) w.count w.counted (· = w.next) where
  le := ⟨id, .inl, id, .inl⟩
  used := Iff.rfl
  cells hy := by
    rw [Heap.getElem?_pushCell_of_lt (Array.getElem?_eq_some_iff.mp hy).1]
    exact hy
  size := Nat.le_refl _
  frames _ := rfl
  nextId := Nat.le_refl _
  outer := rfl
  count := w.count_le_counted
  ident := .inl
  ident_unique hid _ ho _ := absurd (w.valid.ident_used hid) (ho ▸ w.next_unused)
  cell := by
    rintro i x (hx | ⟨rfl, rfl⟩)
    · exact .inl hx
    · have hused : t.All (w.mapCell e t).used := (w.valid.scope_used hs.1).imp fun _ => .inl
      have hscope : (w.mapCell e t).scope s t := hs.1
      refine .inr ⟨rfl, Array.getElem?_eq_none (Nat.le_refl _), ⟨_, Heap.getElem?_pushCell_size _ _, .expr hscope _ _⟩,
        ⟨.inr rfl, hused⟩, ⟨w.near_next, hs.2⟩, trivial⟩
  cell_unique := by
    rintro i j x y (hx | ⟨rfl, rfl⟩) (hy | ⟨rfl, rfl⟩) hox hoy -
    · exact absurd (w.valid.origin_used hx) (hox ▸ w.next_unused)
    · exact absurd (w.valid.origin_used hx) (hox ▸ w.next_unused)
    · exact absurd (w.valid.origin_used hy) (hoy ▸ w.next_unused)
    · exact ⟨rfl, rfl⟩
  scope := .inl
  unused ho := ho ▸ w.next_unused
  first ho hx := ho ▸ w.next_first hx
  waiting hq ho := ho ▸ w.next_waiting hq
  unmade hx hn ho := ho ▸ w.next_unmade hx hn

/-- The scope of a call, and what it stands for. -/
def mapFrame (w : World c) (s : LazyModules.Scope) (t : Scope) : Map :=
  { w.map with
    scope := fun s' t' => w.map.scope s' t' ∨ s' = ⟨s.address, w.heap.rest.frames.size :: s.frames⟩ ∧ t' = t }

theorem callFrame_find?_rel {R : LazyModules.Slot → Slot → Prop} {xs : List LazyModules.Slot} {ys : List Slot}
    (h : List.Forall₂ R xs ys) (params : List String) (name : String) :
    Option.Rel (fun b y => ∃ x, b = some x ∧ R x y) (Table.find? (Eval.callFrame (params.zip xs)) name)
      (Table.find? (Table.insertAll [] (params.zip ys)) name) := by
  refine Table.find?_rel (Table.insertAll_rel ?_ .nil) name
  induction h generalizing params with
  | nil => simp
  | cons hxy _ ih =>
    cases params with
    | nil => exact .nil
    | cons n params => exact .cons ⟨rfl, _, rfl, hxy⟩ (ih params)

/-- The scope of a call has slots for the parameters and for all that the function sees. -/
theorem suits_enter (w : World c) {m' : Map} (hm : w.map.Le m') {s : LazyModules.Scope} {t : Scope}
    (hs : w.map.scope s t) {params : List String} {xs : List LazyModules.Slot} {ys : List Slot}
    (hxs : List.Forall₂ (Meaning.SlotRel m' fun _ => True) xs ys) :
    Suits c m' (Heap.pushFrame w.heap (Eval.callFrame (params.zip xs)))
      ⟨s.address, w.heap.rest.frames.size :: s.frames⟩ (t.enter (params.zip ys)) := by
  have hold : Suits c m' (Heap.pushFrame w.heap (Eval.callFrame (params.zip xs))) s t :=
    (w.valid.scope_suits hs).mono hm (by simp [Heap.pushFrame]) (fun hk => Heap.getElem?_pushFrame_of_lt hk _) id
  refine ⟨fun k hk => ?_, fun name => ?_⟩
  · rcases List.mem_cons.mp hk with rfl | hk
    · simp [Heap.pushFrame]
    · exact hold.frames k hk
  · obtain ⟨found, hfound, hrel⟩ := hold.lookup name
    have hframe := callFrame_find?_rel hxs params name
    refine ⟨_, fun hP => (Scope.lookup_enter _ t _ name).trans (by rw [hfound hP]), ?_⟩
    change Option.Rel _ (Scope.lookupIn _ name (_ :: s.frames)) _
    simp only [Scope.lookupIn, Frames.frame, Heap.getElem?_pushFrame_size, Option.getD_some]
    generalize Table.find? (Eval.callFrame (params.zip xs)) name = b,
      Table.find? (Table.insertAll [] (params.zip ys)) name = y at hframe
    cases hframe with
    | none => exact hrel
    | some hxy => exact .some hxy

theorem slot_used (w : World c) {x : LazyModules.Slot} {y : Slot} (h : w.SlotRel x y) : y.All w.map.used :=
  (h.carry (w.valid.carries fun _ ho _ => ho)).all

theorem extension_frame (w : World c) {s : LazyModules.Scope} {t : Scope} (hs : w.map.scope s t)
    (params : List String) {xs : List LazyModules.Slot} {ys : List Slot} (hxs : List.Forall₂ w.SlotRel xs ys) :
    Extension c w.map (w.mapFrame s (t.enter (params.zip ys))) w.heap
      (Heap.pushFrame w.heap (Eval.callFrame (params.zip xs))) w.count w.count fun _ => False where
  le := ⟨id, id, .inl, id⟩
  used := (or_false _).symm ▸ Iff.rfl
  cells := id
  size := by simp [Heap.pushFrame]
  frames hk := Heap.getElem?_pushFrame_of_lt hk _
  nextId := Nat.le_refl _
  outer := rfl
  count _ := Nat.le_refl _
  ident := .inl
  ident_unique _ _ ho _ := ho.elim
  cell := .inl
  cell_unique _ _ ho _ _ := ho.elim
  scope := by
    have hm : w.map.Le (w.mapFrame s (t.enter (params.zip ys))) := ⟨id, id, .inl, id⟩
    rintro s' t' (hs' | ⟨rfl, rfl⟩)
    · exact .inl hs'
    · refine .inr ⟨(w.valid.scope_used hs).enter fun b hb => ?_, w.suits_enter hm hs ?_⟩
      · exact List.forall₂_same.mp (forall₂_right (fun _ _ => w.slot_used) hxs) _ (List.of_mem_zip hb).2
      · exact hxs.imp fun _ _ h => h.carry (hm.carries fun _ _ => trivial)
  unused := False.elim
  first := False.elim
  waiting _ ho := ho.elim
  unmade _ _ ho := ho.elim

end World

end LazyModules.Meaning
