import LazyModules.Eval

/-!
# Heaps that grow

Evaluation makes cells, frames and identities. It never takes any of them away, and it changes neither the
job of a cell nor the bindings of a frame.
-/
namespace LazyModules

variable {σ : Type}

namespace Heap

/-- What the cell at a place was made for. -/
def job? (m : Heap σ) (i : Nat) : Option Job := m.cells[i]?.map Cell.job

/-- A cell more. -/
def pushCell (m : Heap σ) (job : Job) : Heap σ := { m with cells := m.cells.push (.waiting job) }

def pushFrame (m : Heap σ) (f : Frame Slot) : Heap σ :=
  { m with rest := { m.rest with frames := m.rest.frames.push f } }

/-- An identity used up. -/
def useId (m : Heap σ) : Heap σ := { m with rest := { m.rest with nextId := m.rest.nextId + 1 } }

theorem job?_eq_some_iff {m : Heap σ} {i : Nat} {job : Job} :
    job? m i = some job ↔ ∃ c, m.cells[i]? = some c ∧ c.job = job := by
  rw [job?, Option.map_eq_some_iff]

theorem exists_job? {m : Heap σ} {i : Nat} (h : i < m.cells.size) : ∃ job, job? m i = some job :=
  ⟨_, job?_eq_some_iff.mpr ⟨_, Array.getElem?_eq_getElem h, rfl⟩⟩

theorem lt_of_job? {m : Heap σ} {i : Nat} {job : Job} (h : job? m i = some job) : i < m.cells.size := by
  obtain ⟨c, hc, -⟩ := job?_eq_some_iff.mp h
  exact (Array.getElem?_eq_some_iff.mp hc).1

theorem getElem?_pushCell_of_lt {m : Heap σ} {i : Nat} (h : i < m.cells.size) (job : Job) :
    (pushCell m job).cells[i]? = m.cells[i]? := by
  rw [pushCell, Array.getElem?_push_lt h, Array.getElem?_eq_getElem h]

theorem getElem?_pushCell_size (m : Heap σ) (job : Job) :
    (pushCell m job).cells[m.cells.size]? = some (.waiting job) := by
  rw [pushCell, Array.getElem?_push_size]

/-- What is in a heap with a cell more was there before or is the new cell. -/
theorem getElem?_pushCell {m : Heap σ} {job : Job} {i : Nat} {c : Cell Job Value}
    (h : (pushCell m job).cells[i]? = some c) : m.cells[i]? = some c ∨ c = .waiting job := by
  rw [pushCell, Array.getElem?_push] at h
  split at h
  · exact .inr (Option.some.inj h).symm
  · exact .inl h

theorem getElem?_pushFrame {m : Heap σ} {f g : Frame Slot} {i : Nat}
    (h : (pushFrame m f).rest.frames[i]? = some g) : m.rest.frames[i]? = some g ∨ g = f := by
  rw [pushFrame, Array.getElem?_push] at h
  split at h
  · exact .inr (Option.some.inj h).symm
  · exact .inl h

theorem job?_pushCell_size (m : Heap σ) (job : Job) : job? (pushCell m job) m.cells.size = some job := by
  rw [job?, getElem?_pushCell_size]
  rfl

theorem getElem?_pushFrame_size (m : Heap σ) (f : Frame Slot) :
    (pushFrame m f).rest.frames[m.rest.frames.size]? = some f := by
  rw [pushFrame, Array.getElem?_push_size]

theorem getElem?_pushFrame_of_lt {m : Heap σ} {i : Nat} (h : i < m.rest.frames.size) (f : Frame Slot) :
    (pushFrame m f).rest.frames[i]? = m.rest.frames[i]? := by
  rw [pushFrame, Array.getElem?_push, if_neg (Nat.ne_of_lt h)]

theorem getElem?_setCell_ne (m : Heap σ) {i k : Nat} (h : i ≠ k) (c : Cell Job Value) :
    (m.setCell i c).cells[k]? = m.cells[k]? := by
  rw [Machine.setCell, Array.getElem?_setIfInBounds_ne h]

theorem getElem?_setCell_self {m : Heap σ} {i : Nat} {job : Job} (h : job? m i = some job)
    (c : Cell Job Value) : (m.setCell i c).cells[i]? = some c := by
  rw [Machine.setCell, Array.getElem?_setIfInBounds_self_of_lt (lt_of_job? h)]

/-- What is in a heap with a cell changed was there before or is that cell. -/
theorem getElem?_setCell {m : Heap σ} {i k : Nat} {c c' : Cell Job Value}
    (h : (m.setCell i c).cells[k]? = some c') : i ≠ k ∧ m.cells[k]? = some c' ∨ i = k ∧ c' = c := by
  by_cases hk : i = k
  · refine .inr ⟨hk, ?_⟩
    subst hk
    obtain ⟨hi, h⟩ := Array.getElem?_eq_some_iff.mp h
    rw [← h]
    simp [Machine.setCell]
  · exact .inl ⟨hk, by rwa [getElem?_setCell_ne m hk] at h⟩

/-- A cell in another state has the same job. -/
theorem job?_setCell {m : Heap σ} {i : Nat} {c : Cell Job Value} (h : job? m i = some c.job) (k : Nat) :
    job? (m.setCell i c) k = job? m k := by
  by_cases hk : i = k
  · subst hk
    rw [h, job?, getElem?_setCell_self h]
    rfl
  · rw [job?, getElem?_setCell_ne m hk, job?]

end Heap

/-- The second heap has the frames of the first one, and cells for the same jobs. -/
structure Grows (m m' : Heap σ) : Prop where
  job : ∀ {i : Nat} {job : Job}, Heap.job? m i = some job → Heap.job? m' i = some job
  frame : ∀ {k : Nat} {f : Frame Slot}, m.rest.frames[k]? = some f → m'.rest.frames[k]? = some f

namespace Grows

theorem refl (m : Heap σ) : Grows m m := ⟨id, id⟩

theorem trans {m m' m'' : Heap σ} (h : Grows m m') (h' : Grows m' m'') : Grows m m'' :=
  ⟨fun hi => h'.job (h.job hi), fun hk => h'.frame (h.frame hk)⟩

theorem pushCell (m : Heap σ) (job : Job) : Grows m (Heap.pushCell m job) := by
  refine ⟨fun {i j} hi => ?_, id⟩
  rw [← hi, Heap.job?, Heap.getElem?_pushCell_of_lt (Heap.lt_of_job? hi), Heap.job?]

theorem pushFrame (m : Heap σ) (f : Frame Slot) : Grows m (Heap.pushFrame m f) := by
  refine ⟨id, fun {k g} hk => ?_⟩
  obtain ⟨hlt, -⟩ := Array.getElem?_eq_some_iff.mp hk
  rw [← hk, Heap.pushFrame, Array.getElem?_push_lt hlt, Array.getElem?_eq_getElem hlt]

theorem useId (m : Heap σ) : Grows m (Heap.useId m) := ⟨id, id⟩

theorem setCell {m : Heap σ} {i : Nat} {c : Cell Job Value} (h : Heap.job? m i = some c.job) :
    Grows m (m.setCell i c) :=
  ⟨fun hk => by rw [Heap.job?_setCell h, hk], id⟩

end Grows

/-! ## Demands -/

/-- A cell after its job has ended. -/
def Cell.after {π ρ ε : Type} (job : π) : Outcome ε ρ → Cell π ρ
  | .ok r => .done job r
  | _ => .waiting job

theorem Cell.job_after {π ρ ε : Type} (job : π) (o : Outcome ε ρ) : (Cell.after job o).job = job := by
  cases o <;> rfl

/-- A demand that reaches a cell that waits. -/
theorem demand_waiting {circular : Trouble} {run : Job → Eval σ Value} {m m' : Heap σ} {i : Nat} {job : Job}
    {o : Outcome Trouble Value} (hi : m.cells[i]? = some (.waiting job))
    (hrun : run job (m.setCell i (.busy job)) = (o, m')) :
    Machine.demand circular run i m = (o, m'.setCell i (.after job o)) := by
  simp only [Machine.demand, hi, hrun]
  cases o <;> rfl

namespace Eval

def callFrame (bindings : List (String × Slot)) : Frame Slot :=
  Table.insertAll [] (bindings.map fun p => (p.1, some p.2))

/-- A change to the latest of some frames. -/
theorem modify_push (fs : Frames Slot) (g : Frame Slot) (f : Frame Slot → Frame Slot) :
    (fs.push g).modify fs.size f = fs.push (f g) := by
  refine Array.ext_getElem? fun i => ?_
  rw [Array.getElem?_modify]
  by_cases hi : fs.size = i
  · simp [← hi]
  · rw [if_neg hi, Array.getElem?_push, Array.getElem?_push, if_neg (Ne.symm hi), if_neg (Ne.symm hi)]

theorem enter_eq (scope : Scope) (bindings : List (String × Slot)) (m : Heap σ) :
    enter scope bindings m = (.ok ⟨scope.address, m.rest.frames.size :: scope.frames⟩,
      Heap.pushFrame m (callFrame bindings)) := by
  change (_, _) = _
  simp only [Scope.update, Scope.modifyInner, modify_push]
  rfl

end Eval

end LazyModules
