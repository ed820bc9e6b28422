import LazyModules.Proofs.Discipline.Keeps

/-!
# What a heap leads to

From a cell one gets to the frames of the scope that its job is to be done in, and from a frame to the cells
and functions that it binds. A territory is a part of a heap that cannot be left in this way, and in which
only certain modules have imports. Whatever lies in it can do nothing but bring imports of these modules to
their values, however it is used.

Jobs and frames stay as they are made, so a territory stays one while the heap grows (`Territory.grow`), and
what was there before lies in a territory afterwards only if it did before (`Territory.shrink`).
-/
namespace LazyModules

def Scope.AllFrames (F : Nat → Prop) (s : Scope) : Prop := ∀ k ∈ s.frames, F k

section Holds

variable {ι : Type} {Q : ι → Prop} {A : ι → Scope → Prop} {B : ι → Nat → Prop}

/-- A function holds no code but its own. -/
theorem Closure.Carries.forall {f : Closure} (hf : ∀ x, Q x → f.Carries fun _ => A x) :
    f.Carries fun _ s => ∀ x, Q x → A x s :=
  ⟨0, fun x hx => (hf x hx).choose_spec⟩

theorem Slot.Holds.forall {x : Slot} (hx : ∀ y, Q y → x.Holds (fun _ => A y) (B y)) :
    x.Holds (fun _ s => ∀ y, Q y → A y s) fun i => ∀ y, Q y → B y i := by
  cases x with
  | constant c => trivial
  | closure f => exact Closure.Carries.forall hx
  | cell i => exact hx

theorem Value.Holds.forall {v : Value} (hv : ∀ y, Q y → v.Holds (fun _ => A y) (B y)) :
    v.Holds (fun _ s => ∀ y, Q y → A y s) fun i => ∀ y, Q y → B y i := by
  cases v with
  | nil | flag b | number n | text s => trivial
  | list i items => exact fun x hx => Slot.Holds.forall fun y hy => hv y hy x hx
  | record i fields => exact fun p hp => Slot.Holds.forall fun y hy => hv y hy p hp
  | function f => exact Closure.Carries.forall hv

end Holds

variable {σ : Type} {h h' : Heap σ} {P : String → Prop} {C C' F F' : Nat → Prop}

/-- Cells and frames that lead only to one another and to imports of certain modules. -/
structure Territory (h : Heap σ) (P : String → Prop) (C F : Nat → Prop) : Prop where
  cell_lt : ∀ i, C i → i < h.cells.size
  frame_lt : ∀ k, F k → k < h.rest.frames.size
  job : ∀ i job, C i → Heap.job? h i = some job →
    job.Holds (fun _ => Scope.AllFrames F) fun importer _ _ => P importer
  slot : ∀ k f, F k → h.rest.frames[k]? = some f → ∀ p ∈ f, ∀ x, p.2 = some x →
    x.Holds (fun _ => Scope.AllFrames F) C

namespace Territory

/-- A territory stays one while the heap grows. -/
theorem grow (ht : Territory h P C F) (hle : Grows h h') : Territory h' P C F := by
  have hcell (i : Nat) (hi : C i) : ∃ job, Heap.job? h i = some job ∧ Heap.job? h' i = some job := by
    obtain ⟨job, hjob⟩ := Heap.exists_job? (ht.cell_lt i hi)
    exact ⟨job, hjob, hle.job hjob⟩
  have hframe (k : Nat) (hk : F k) : ∃ f, h.rest.frames[k]? = some f ∧ h'.rest.frames[k]? = some f := by
    have hf := Array.getElem?_eq_getElem (ht.frame_lt k hk)
    exact ⟨_, hf, hle.frame hf⟩
  refine ⟨fun i hi => ?_, fun k hk => ?_, fun i job hi hjob => ?_, fun k f hk hf => ?_⟩
  · obtain ⟨job, -, hjob⟩ := hcell i hi
    exact Heap.lt_of_job? hjob
  · obtain ⟨f, -, hf⟩ := hframe k hk
    exact (Array.getElem?_eq_some_iff.mp hf).1
  · obtain ⟨job', hold, hnew⟩ := hcell i hi
    rw [hnew] at hjob
    obtain rfl := Option.some.inj hjob
    exact ht.job i job' hi hold
  · obtain ⟨f', hold, hnew⟩ := hframe k hk
    rw [hnew] at hf
    obtain rfl := Option.some.inj hf
    exact ht.slot k f' hk hold

/-- What a territory of a heap that has grown has in common with one of the heap before. -/
theorem shrink {Q : String → Prop} (ht : Territory h' P C F) (hle : Grows h h') (hs : Territory h Q C' F') :
    Territory h P (fun i => C i ∧ C' i) fun k => F k ∧ F' k := by
  have hwithin (s : Scope) (hF : s.AllFrames F) (hF' : s.AllFrames F') : s.AllFrames fun k => F k ∧ F' k :=
    fun k hk => ⟨hF k hk, hF' k hk⟩
  refine ⟨fun i hi => hs.cell_lt i hi.2, fun k hk => hs.frame_lt k hk.2, fun i job hi hjob => ?_,
    fun k f hk hf p hp x hx => ?_⟩
  · have hnew := ht.job i job hi.1 (hle.job hjob)
    have hold := hs.job i job hi.2 hjob
    cases job with
    | expr e s => exact hwithin s hnew hold
    | load importer name target => exact hnew
  · have hnew := ht.slot k f hk.1 (hle.frame hf) p hp x hx
    have hold := hs.slot k f hk.2 hf p hp x hx
    cases x with
    | constant c => trivial
    | closure f => exact ⟨0, hwithin f.scope hnew.choose_spec hold.choose_spec⟩
    | cell i => exact ⟨hnew, hold⟩

end Territory

/-! ## What lies in a territory -/

/-- A cell that leads only to imports of certain modules. -/
def CellIn (h : Heap σ) (P : String → Prop) (i : Nat) : Prop := ∃ C F, Territory h P C F ∧ C i

def FrameIn (h : Heap σ) (P : String → Prop) (k : Nat) : Prop := ∃ C F, Territory h P C F ∧ F k

abbrev ScopeIn (h : Heap σ) (P : String → Prop) (s : Scope) : Prop := s.AllFrames (FrameIn h P)

abbrev SlotIn (h : Heap σ) (P : String → Prop) (x : Slot) : Prop := x.Holds (fun _ => ScopeIn h P) (CellIn h P)

abbrev ValueIn (h : Heap σ) (P : String → Prop) (v : Value) : Prop := v.Holds (fun _ => ScopeIn h P) (CellIn h P)

/-- All that leads only to imports of certain modules is a territory. -/
theorem territory_all (h : Heap σ) (P : String → Prop) : Territory h P (CellIn h P) (FrameIn h P) := by
  refine ⟨?_, ?_, ?_, ?_⟩
  · rintro i ⟨C, F, ht, hi⟩
    exact ht.cell_lt i hi
  · rintro k ⟨C, F, ht, hk⟩
    exact ht.frame_lt k hk
  · rintro i job ⟨C, F, ht, hi⟩ hjob
    exact (ht.job i job hi hjob).imp fun _ s hs k hk => ⟨C, F, ht, hs k hk⟩
  · rintro k f ⟨C, F, ht, hk⟩ hf p hp x hx
    exact (ht.slot k f hk hf p hp x hx).mono (fun _ s hs k hk => ⟨C, F, ht, hs k hk⟩) fun i hi => ⟨C, F, ht, hi⟩

theorem CellIn.grow {i : Nat} (hi : CellIn h P i) (hle : Grows h h') : CellIn h' P i := by
  obtain ⟨C, F, ht, hi⟩ := hi
  exact ⟨C, F, ht.grow hle, hi⟩

theorem FrameIn.grow {k : Nat} (hk : FrameIn h P k) (hle : Grows h h') : FrameIn h' P k := by
  obtain ⟨C, F, ht, hk⟩ := hk
  exact ⟨C, F, ht.grow hle, hk⟩

theorem ScopeIn.grow {s : Scope} (hs : ScopeIn h P s) (hle : Grows h h') : ScopeIn h' P s :=
  fun k hk => (hs k hk).grow hle

theorem ValueIn.grow {v : Value} (hv : ValueIn h P v) (hle : Grows h h') : ValueIn h' P v :=
  hv.mono (fun _ _ hs => ScopeIn.grow hs hle) fun _ hi => hi.grow hle

/-- A new cell whose job leads only to imports of certain modules. -/
theorem cellIn_pushCell {job : Job}
    (hjob : job.Holds (fun _ => ScopeIn h P) fun importer _ _ => P importer) :
    CellIn (Heap.pushCell h job) P h.cells.size := by
  have hgrown := (territory_all h P).grow (Grows.pushCell h job)
  refine ⟨fun i => CellIn h P i ∨ i = h.cells.size, FrameIn h P, ⟨fun i hi => ?_, hgrown.frame_lt,
    fun i job' hi hjob' => ?_, fun k f hk hf p hp x hx => ?_⟩, .inr rfl⟩
  · rcases hi with hi | rfl
    · exact hgrown.cell_lt i hi
    · exact Heap.lt_of_job? (Heap.job?_pushCell_size h job)
  · rcases hi with hi | rfl
    · exact hgrown.job i job' hi hjob'
    · rw [Heap.job?_pushCell_size] at hjob'
      obtain rfl := Option.some.inj hjob'
      exact hjob
  · exact (hgrown.slot k f hk hf p hp x hx).mono (fun _ _ => id) fun _ => .inl

/-- A new frame that binds only what leads to imports of certain modules. -/
theorem frameIn_pushFrame {f : Frame Slot} (hf : ∀ p ∈ f, ∀ x, p.2 = some x → SlotIn h P x) :
    FrameIn (Heap.pushFrame h f) P h.rest.frames.size := by
  have hgrown := (territory_all h P).grow (Grows.pushFrame h f)
  have hwiden (s : Scope) (hs : ScopeIn h P s) : s.AllFrames fun k => FrameIn h P k ∨ k = h.rest.frames.size :=
    fun k hk => .inl (hs k hk)
  refine ⟨CellIn h P, fun k => FrameIn h P k ∨ k = h.rest.frames.size, ⟨hgrown.cell_lt, fun k hk => ?_,
    fun i job hi hjob => ?_, fun k g hk hg p hp x hx => ?_⟩, .inr rfl⟩
  · rcases hk with hk | rfl
    · exact hgrown.frame_lt k hk
    · exact (Array.getElem?_eq_some_iff.mp (Heap.getElem?_pushFrame_size h f)).1
  · exact (hgrown.job i job hi hjob).imp fun _ => hwiden
  · rcases hk with hk | rfl
    · exact (hgrown.slot k g hk hg p hp x hx).imp fun _ => hwiden
    · rw [Heap.getElem?_pushFrame_size] at hg
      obtain rfl := Option.some.inj hg
      exact (hf p hp x hx).imp fun _ => hwiden

/-! ## Sound heaps -/

/-- A heap in which nothing leads beyond its cells and frames. -/
structure Sound (h : Heap σ) : Prop where
  cell : ∀ i, i < h.cells.size → CellIn h (fun _ => True) i
  frame : ∀ k, k < h.rest.frames.size → FrameIn h (fun _ => True) k

/-- What was there before leads to imports of certain modules only if it did before. -/
theorem CellIn.shrink {i : Nat} (hi : CellIn h' P i) (hle : Grows h h') (hsound : Sound h)
    (hlt : i < h.cells.size) : CellIn h P i := by
  obtain ⟨C, F, ht, hi⟩ := hi
  exact ⟨_, _, ht.shrink hle (territory_all h _), hi, hsound.cell i hlt⟩

namespace Sound

/-- A heap that has grown is sound if what is new in it is. -/
theorem grow (hsound : Sound h) (hle : Grows h h')
    (hcells : ∀ i, h.cells.size ≤ i → i < h'.cells.size → CellIn h' (fun _ => True) i)
    (hframes : ∀ k, h.rest.frames.size ≤ k → k < h'.rest.frames.size → FrameIn h' (fun _ => True) k) :
    Sound h' := by
  refine ⟨fun i hi => ?_, fun k hk => ?_⟩
  · rcases Nat.lt_or_ge i h.cells.size with hlt | hge
    · exact (hsound.cell i hlt).grow hle
    · exact hcells i hge hi
  · rcases Nat.lt_or_ge k h.rest.frames.size with hlt | hge
    · exact (hsound.frame k hlt).grow hle
    · exact hframes k hge hk

/-- A heap with as many cells and frames. -/
theorem of_size_eq (hsound : Sound h) (hle : Grows h h') (hcells : h'.cells.size = h.cells.size)
    (hframes : h'.rest.frames.size = h.rest.frames.size) : Sound h' :=
  hsound.grow hle (fun i hge hlt => absurd hlt (by omega)) fun k hge hlt => absurd hlt (by omega)

theorem pushCell (hsound : Sound h) {job : Job}
    (hjob : job.Holds (fun _ => ScopeIn h fun _ => True) fun _ _ _ => True) :
    Sound (Heap.pushCell h job) := by
  refine hsound.grow (Grows.pushCell h job) (fun i hge hlt => ?_) fun k hge hlt => absurd hlt (Nat.not_lt_of_le hge)
  rw [Heap.pushCell, Array.size_push] at hlt
  obtain rfl : i = h.cells.size := by omega
  exact cellIn_pushCell hjob

theorem pushFrame (hsound : Sound h) {f : Frame Slot}
    (hf : ∀ p ∈ f, ∀ x, p.2 = some x → SlotIn h (fun _ => True) x) : Sound (Heap.pushFrame h f) := by
  refine hsound.grow (Grows.pushFrame h f) (fun i hge hlt => absurd hlt (Nat.not_lt_of_le hge)) fun k hge hlt => ?_
  rw [Heap.pushFrame, Array.size_push] at hlt
  obtain rfl : k = h.rest.frames.size := by omega
  exact frameIn_pushFrame hf

end Sound

end LazyModules
