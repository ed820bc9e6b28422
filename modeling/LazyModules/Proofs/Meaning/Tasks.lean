import LazyModules.Proofs.Meaning.Making

/-!
# Tasks from begin to end

A task begins in a world and takes it through other worlds to its end. It comes to its value or to nothing, and the
world after it comes after the world before it.

What fails while a task is busy is doomed: it has a value only if a busy task has one at a smaller depth. If the busy
task itself comes to nothing for such a reason then it does not count any more, since depths cannot decrease forever.

**Results.** `exists_finished`, `exists_aborted`: the world after a task. `doomed_outside`: what is doomed while a
doomed task is busy is doomed outside of it.
-/
namespace LazyModules.Meaning.World

open Engine

variable {c : Config} {w u : World c} {q : Question} {h h' : EngineState}

theorem ne_of_waiting (hq : w.Task q .waiting) {q' : Question} (hq' : w.Task q' .busy) : q' ≠ q := by
  rintro rfl
  cases (w.valid.task_unique hq hq' rfl).2

/-- A task that waits is not under way. -/
theorem ne_origin_of_active (hq : w.Task q .waiting) {x : Origin} (hx : w.Active x) : x ≠ q.origin := by
  rintro rfl
  rcases hx with hx | ⟨q', hq', hx⟩
  · exact w.valid.origin_ne_outside hq hx
  · cases (w.valid.task_unique hq hq' hx.symm).2

theorem not_from_of_busy (hq : w.Task q .waiting) {q' : Question} (hq' : w.Task q' .busy) :
    ¬ q'.origin.From q.origin := by
  cases hq' with
  | cell hx _ _ => exact w.valid.waiting hq (w.valid.origin_used hx)
  | module a _ => exact id

def begin (w : World c) (hq : w.Task q .waiting) (ht : Turns w.map q .busy w.heap h)
    (hfailed : h.rest.outer.failed = w.session.failed) : World c where
  map := w.map
  heap := h
  current := q.origin
  count := Function.update w.count q.origin 0
  valid := w.valid.begin hq ht
  failed ha := by
    intro P hP d hd
    obtain ⟨q', hq', hd'⟩ := w.failed (hfailed ▸ ha) (ht.compat hP) hd
    exact ⟨q', ht.others (ne_of_waiting hq hq') hq', hd'⟩

section Ending

variable (hq : w.Task q .waiting) (ht : Turns w.map q .busy w.heap h) (hfailed : h.rest.outer.failed = w.session.failed)

theorem place_begin : (w.begin hq ht hfailed).place = ⟨q.origin, 0⟩ := by simp [place, begin]

theorem task_begin {q' : Question} : (w.begin hq ht hfailed).Task q' .busy ↔ q' = q ∨ w.Task q' .busy := by
  constructor
  · intro hq'
    rcases ht.task hq' with ⟨rfl, -⟩ | ⟨-, hq'⟩
    · exact .inl rfl
    · exact .inr hq'
  · rintro (rfl | hq')
    · exact ht.now
    · exact ht.others (ne_of_waiting hq hq') hq'

variable (hle : (w.begin hq ht hfailed).Le u)
include hle

theorem active_of_begin {x : Origin} (hx : w.Active x) : u.Active x := by
  rw [hle.active_iff]
  refine hx.imp id ?_
  rintro ⟨q', hq', rfl⟩
  exact ⟨q', (task_begin hq ht hfailed).mpr (.inr hq'), rfl⟩

theorem task_of_begin : u.Task q .busy := hle.busy.mpr ((task_begin hq ht hfailed).mpr (.inl rfl))

/-- How many things other evaluations have made is the same in the end. -/
theorem count_of_begin {x : Origin} (hx : w.Active x) : u.count x = w.count x := by
  have hne := ne_origin_of_active hq hx
  have hactive : (w.begin hq ht hfailed).Active x := hle.active_iff.mp (active_of_begin hq ht hfailed hle hx)
  rw [hle.count hne hactive]
  exact Function.update_of_ne hne _ _

/-- What is doomed while a doomed task is busy is doomed outside of it. -/
theorem doomed_outside (hself : u.map.Doomed c u.heap q) {q' : Question} (hq' : u.map.Doomed c u.heap q') {P : Program}
    (hP : Compat c P u.session) {d : Nat} (hd : Succeeds P d q') :
    ∃ q'', w.Task q'' .busy ∧ ∃ d' < d, Succeeds P d' q'' := by
  induction d using Nat.strong_induction_on generalizing q' with
  | _ d ih =>
    obtain ⟨r, hbusy, k, hlt, hk⟩ := hq' hP hd
    rcases (task_begin hq ht hfailed).mp (hle.busy.mp hbusy) with rfl | hbusy
    · obtain ⟨r', hbusy', k', hlt', hk'⟩ := ih k hlt hself hk
      exact ⟨r', hbusy', k', Nat.lt_trans hlt' hlt, hk'⟩
    · exact ⟨r, hbusy, k, hlt, hk⟩

/-- The tasks that are busy in the end are those that were busy in the beginning. -/
theorem task_of_turns {p : Progress} (hend : Turns u.map q p u.heap h') (hp : p ≠ .busy) {q' : Question} :
    u.map.Task h' q' .busy ↔ w.Task q' .busy := by
  constructor
  · intro hq'
    rcases hend.task hq' with ⟨-, rfl⟩ | ⟨hne, hq'⟩
    · exact absurd rfl hp
    · exact ((task_begin hq ht hfailed).mp (hle.busy.mp hq')).resolve_left hne
  · intro hq'
    exact hend.others (ne_of_waiting hq hq') (hle.busy.mpr ((task_begin hq ht hfailed).mpr (.inr hq')))

/-- Nothing that there was comes from a task that had not begun. -/
theorem map_le_drop : w.map.Le (u.map.drop q.origin) where
  ident hid := ⟨hle.map.ident hid, w.valid.waiting hq (w.valid.ident_used hid)⟩
  cell hx := ⟨hle.map.cell hx, (w.valid.cell_used hx).imp fun _ => w.valid.waiting hq⟩
  scope hs := ⟨hle.map.scope hs, (w.valid.scope_used hs).imp fun _ => w.valid.waiting hq⟩
  used ho := ⟨hle.map.used ho, w.valid.waiting hq ho⟩

theorem jobs_of_turns {p : Progress} (hend : Turns u.map q p u.heap h') {i : Nat} {y : Cell Job LazyModules.Value}
    (hy : w.heap.cells[i]? = some y) : ∃ y', h'.cells[i]? = some y' ∧ y'.job = y.job := by
  obtain ⟨y₁, hy₁, hjob₁⟩ := ht.jobs hy
  obtain ⟨y₂, hy₂, hjob₂⟩ := hle.jobs hy₁
  obtain ⟨y₃, hy₃, hjob₃⟩ := hend.jobs hy₂
  exact ⟨y₃, hy₃, hjob₃.trans (hjob₂.trans hjob₁)⟩

theorem loaded_of_turns {p : Progress} (hend : Turns u.map q p u.heap h') :
    Table.Gains w.session.library.cache.loaded h'.rest.outer.library.cache.loaded :=
  (ht.loaded.trans hle.loaded).trans hend.loaded

theorem failed_of_turns (hsame : h'.rest.outer.failed = w.session.failed) {m : Map} {p : Progress}
    (hend : Turns u.map q p u.heap h') (hbusy : ∀ {q'}, w.Task q' .busy → m.Task h' q' .busy) {a : String}
    (ha : a ∈ h'.rest.outer.failed) : m.Doomed c h' (.module a) := by
  intro P hP d hd
  have hP' : Compat c P w.session := fun a points ha =>
    hP a points (loaded_of_turns hq ht hfailed hle hend a _ ha)
  obtain ⟨q', hq', hd'⟩ := w.failed (hsame ▸ ha) hP' hd
  exact ⟨q', hbusy hq', hd'⟩

/-- The world after a task that has come to its value. -/
theorem exists_finished {v : LazyModules.Value} (hend : Turns u.map q (.done v) u.heap h')
    (hevaluating : h'.rest.outer.evaluating = w.session.evaluating) (hsame : h'.rest.outer.failed = w.session.failed)
    (hnear : w.Near q.origin) {b : Value} (hb : u.ValueRel v b)
    (hcomes : ∀ {P}, Compat c P u.session → Comes P q b) :
    ∃ w' : World c, w'.heap = h' ∧ w.Le w' ∧ w'.place = w.place ∧ w'.ValueRel v b := by
  have hbusy {q' : Question} : u.map.Task h' q' .busy ↔ w.Task q' .busy :=
    task_of_turns hq ht hfailed hle hend (by simp)
  have hactive := w.valid.current
  have hcurrent : u.current = q.origin := hle.current
  have hvalid : Valid c u.map h' w.current u.count := by
    have hv : Valid c u.map u.heap q.origin u.count := hcurrent ▸ u.valid
    have hb' : Meaning.ValueRel u.map (u.map.Near u.heap (.made q.origin 0)) v b := hcurrent ▸ hb
    exact hv.finish (task_of_begin hq ht hfailed hle) hend hb' hcomes (active_of_begin hq ht hfailed hle hactive)
      (ne_origin_of_active hq hactive)
  let w' : World c :=
    { map := u.map, heap := h', current := w.current, count := u.count, valid := hvalid
      failed := failed_of_turns hq ht hfailed hle hsame hend hbusy.mpr }
  have hle' : w.Le w' :=
    { map := hle.map, busy := hbusy, jobs := jobs_of_turns hq ht hfailed hle hend, evaluating := hevaluating
      current := rfl, count := fun _ hx => count_of_begin hq ht hfailed hle hx
      loaded := loaded_of_turns hq ht hfailed hle hend, failed := fun ha => hsame ▸ ha }
  refine ⟨w', rfl, hle', ?_, hb.carry (hvalid.carries fun o _ ho => ?_)⟩
  · simp only [place, w', count_of_begin hq ht hfailed hle hactive]
  · rintro y hy hoy
    obtain ⟨hy', hne⟩ := hend.open_cases u.valid (task_of_begin hq ht hfailed hle) (by simp) hy
    have hfrom : q.origin.From y := by
      rcases ho y hy' hoy with hself | hfrom
      · exact absurd (hself.symm.trans hcurrent) hne
      · exact hcurrent ▸ hfrom
    exact hnear y (hle'.open_iff.mp hy) hfrom

/-- The world after a task that has come to nothing. What it made is gone. -/
theorem exists_aborted (hend : Turns u.map q .waiting u.heap h')
    (hevaluating : h'.rest.outer.evaluating = w.session.evaluating)
    (hstill : ∀ {a}, a ∈ w.session.failed → a ∈ h'.rest.outer.failed)
    (hends : h'.rest.outer.failed = w.session.failed ∨ u.map.Doomed c u.heap q ∧
      ∀ {a}, a ∈ h'.rest.outer.failed → u.map.Doomed c u.heap (.module a)) :
    ∃ w' : World c, w'.heap = h' ∧ w.Le w' ∧ w'.place = w.place := by
  have hself := task_of_begin hq ht hfailed hle
  have hcurrent : u.current = q.origin := hle.current
  have hactive := w.valid.current
  have hbusy {q' : Question} : (u.map.drop q.origin).Task h' q' .busy ↔ w.Task q' .busy := by
    rw [← task_of_turns hq ht hfailed hle hend (by simp)]
    refine ⟨Map.Task.of_drop, fun hq' => u.valid.task_drop ⟨q, hself, rfl⟩ hq' ?_⟩
    exact not_from_of_busy hq ((task_of_turns hq ht hfailed hle hend (by simp)).mp hq')
  have hvalid : Valid c (u.map.drop q.origin) h' w.current u.count := by
    have hv : Valid c u.map u.heap q.origin u.count := hcurrent ▸ u.valid
    refine hv.abort hself hend (fun {q'} hq' => ?_) (active_of_begin hq ht hfailed hle hactive)
      (ne_origin_of_active hq hactive)
    rcases (task_begin hq ht hfailed).mp (hle.busy.mp hq') with rfl | hq'
    · exact Origin.not_from_self _
    · exact not_from_of_busy hq hq'
  let w' : World c :=
    { map := u.map.drop q.origin, heap := h', current := w.current, count := u.count, valid := hvalid
      failed := by
        intro a ha
        rcases hends with hsame | ⟨hdoomed, hall⟩
        · exact failed_of_turns hq ht hfailed hle hsame hend hbusy.mpr ha
        · intro P hP d hd
          obtain ⟨q', hq', hd'⟩ := doomed_outside hq ht hfailed hle hdoomed (hall ha) (hend.compat hP) hd
          exact ⟨q', hbusy.mpr hq', hd'⟩ }
  refine ⟨w', rfl, ?_, ?_⟩
  · exact
      { map := map_le_drop hq ht hfailed hle, busy := hbusy, jobs := jobs_of_turns hq ht hfailed hle hend
        evaluating := hevaluating, current := rfl, count := fun _ hx => count_of_begin hq ht hfailed hle hx
        loaded := loaded_of_turns hq ht hfailed hle hend, failed := hstill }
  · simp only [place, w', count_of_begin hq ht hfailed hle hactive]

end Ending

end LazyModules.Meaning.World
