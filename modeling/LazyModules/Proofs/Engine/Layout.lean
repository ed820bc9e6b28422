import LazyModules.Engine
import LazyModules.Proofs.Walk.Heap

/-!
# The layout of a module

The scope of a module has one frame, and building it makes new cells: one for each import, and one for each
declaration that is worth a delay. All that it does to a heap is to put that frame and these cells behind
what is there (`laid`). What frame and which cells is settled by the module and by the number of cells, frames
and identities that were there before (`Layout`).

**Results.** `openScope_eq`: imports are bound and names are declared. `moduleScope_eq`: with the values of
the declarations.
-/
namespace LazyModules

/-- The frame of a module, the jobs of its cells, and the next unused identity. -/
structure Layout where
  frame : Frame Slot
  jobs : List Job
  nextId : Nat

/-- Where the layout of the module at an address begins: its first cell and its frame. -/
structure Ground where
  address : String
  cell : Nat
  frame : Nat

namespace Ground

variable (g : Ground)

def scope : Scope := ⟨g.address, [g.frame]⟩

def bindImport (l : Layout) (i : String × String) : Layout :=
  ⟨Table.insert l.frame i.1 (some (.cell (g.cell + l.jobs.length))), l.jobs ++ [.load g.address i.1 i.2], l.nextId⟩

/-- A slot for an expression, and what else there is when it has been made. -/
def delay (l : Layout) : Expr → Slot × Layout
  | .literal c _ => (.constant c, l)
  | .lambda params body _ => (.closure ⟨l.nextId, params, body, g.scope⟩, { l with nextId := l.nextId + 1 })
  | e => (.cell (g.cell + l.jobs.length), { l with jobs := l.jobs ++ [.expr e g.scope] })

def assign (l : Layout) (d : Declaration) : Layout :=
  { (g.delay l d.expr).2 with frame := Table.insert (g.delay l d.expr).2.frame d.name (some (g.delay l d.expr).1) }

/-- The names of a module: its imports are bound and its declarations have no value yet. -/
def names (m : Module) (nextId : Nat) : Layout :=
  m.declarations.foldl (fun l d => { l with frame := Table.insert l.frame d.name none })
    (m.imports.foldl g.bindImport ⟨[], [], nextId⟩)

def layout (m : Module) (nextId : Nat) : Layout := m.declarations.foldl g.assign (g.names m nextId)

end Ground

namespace Engine

open Eval

/-- The ground behind what is in a heap. -/
def ground (h : EngineState) (address : String) : Ground := ⟨address, h.cells.size, h.rest.frames.size⟩

/-- A heap with the layout of a module behind what was there. -/
def laid (h : EngineState) (l : Layout) : EngineState :=
  ⟨h.cells ++ (l.jobs.map Cell.waiting).toArray,
    { h.rest with frames := h.rest.frames.push l.frame, nextId := l.nextId }⟩

section Laid

variable (h : EngineState) (address : String) (l : Layout)

theorem getElem?_cells_laid (i : Nat) : (laid h l).cells[i]? =
    if i < h.cells.size then h.cells[i]? else l.jobs[i - h.cells.size]?.map .waiting := by
  simp only [laid]
  split
  · rename_i hi
    rw [Array.getElem?_append_left hi]
  · rename_i hi
    rw [Array.getElem?_append_right (Nat.le_of_not_lt hi)]
    simp

theorem getElem?_frames_laid {k : Nat} {f : Frame Slot} (hf : (laid h l).rest.frames[k]? = some f) :
    h.rest.frames[k]? = some f ∨ k = h.rest.frames.size ∧ f = l.frame := by
  simp only [laid, Array.getElem?_push] at hf
  split at hf
  · rename_i hk
    exact .inr ⟨hk, (Option.some.inj hf).symm⟩
  · exact .inl hf

theorem frame_laid : (laid h l).rest.frames[h.rest.frames.size]? = some l.frame := by
  simp [laid]

theorem job?_laid (j : Nat) : Heap.job? (laid h l) (h.cells.size + j) = l.jobs[j]? := by
  rw [Heap.job?, getElem?_cells_laid, if_neg (by omega), Nat.add_sub_cancel_left, Option.map_map]
  exact congrFun Option.map_id _

/-- A cell was there before, or is new and waits to do its job. -/
theorem getElem?_laid_cases {i : Nat} {cell : Cell Job Value} (hi : (laid h l).cells[i]? = some cell) :
    h.cells[i]? = some cell ∨ ∃ job ∈ l.jobs, cell = .waiting job := by
  rw [getElem?_cells_laid] at hi
  split at hi
  · exact .inl hi
  · obtain ⟨job, hjob, rfl⟩ := Option.map_eq_some_iff.mp hi
    exact .inr ⟨job, List.mem_of_getElem? hjob, rfl⟩

theorem grows_laid : Grows h (laid h l) := by
  refine ⟨fun {i job} hi => ?_, fun {k f} hk => ?_⟩
  · rw [← hi, Heap.job?, getElem?_cells_laid, if_pos (Heap.lt_of_job? hi), Heap.job?]
  · exact (Grows.pushFrame h l.frame).frame hk

theorem alloc_laid (job : Job) : (Machine.alloc job : Action Nat) (laid h l) =
    (.ok (h.cells.size + l.jobs.length), laid h { l with jobs := l.jobs ++ [job] }) := by
  simp [Machine.alloc, laid]

/-- A change to the frame of the module. -/
theorem modifyInner_laid (f : Frame Slot → Frame Slot) :
    modifyFrames (fun fs => (ground h address).scope.modifyInner fs f) (laid h l) =
      (.ok (), laid h { l with frame := f l.frame }) := by
  simp [modifyFrames, Scope.modifyInner, Ground.scope, ground, laid, modify_push]

theorem delay_laid (e : Expr) : Eval.delay (ground h address).scope e (laid h l) =
    (.ok ((ground h address).delay l e).1, laid h ((ground h address).delay l e).2) := by
  cases e with
  | literal c _ => rfl
  | lambda params body _ => rfl
  | _ =>
    simp only [Eval.delay, bind, Computation.bind, alloc_laid]
    rfl

theorem bindImports_laid (is : List (String × String)) :
    bindImports address (ground h address).scope is (laid h l) =
      (.ok (), laid h (is.foldl (ground h address).bindImport l)) := by
  induction is generalizing l with
  | nil => rfl
  | cons i is ih =>
    simp only [bindImports, bind, Computation.bind, alloc_laid, Scope.assign, modifyInner_laid]
    exact ih _

theorem declareAll_laid (ds : List Declaration) :
    declareAll (ground h address).scope ds (laid h l) =
      (.ok (), laid h (ds.foldl (fun l d => { l with frame := Table.insert l.frame d.name none }) l)) := by
  induction ds generalizing l with
  | nil => rfl
  | cons d ds ih =>
    simp only [declareAll, bind, Computation.bind, Scope.declare, modifyInner_laid]
    exact ih _

/-- Declarations get their values, by a walker that delays them as evaluation by need does. -/
theorem assignAll_laid {delay : Expr → Action Slot} (ds : List Declaration)
    (hdelay : ∀ before d after, ds = before ++ d :: after →
      delay d.expr (laid h (before.foldl (ground h address).assign l)) =
        Eval.delay (ground h address).scope d.expr (laid h (before.foldl (ground h address).assign l))) :
    assignAll delay (ground h address).scope ds (laid h l) =
      (.ok (), laid h (ds.foldl (ground h address).assign l)) := by
  induction ds generalizing l with
  | nil => rfl
  | cons d ds ih =>
    have hd := hdelay [] d ds rfl
    rw [List.foldl_nil, delay_laid] at hd
    simp only [assignAll, bind, Computation.bind, hd, Scope.assign, modifyInner_laid]
    exact ih _ fun before d' after hds => hdelay (d :: before) d' after (congrArg (d :: ·) hds)

end Laid

theorem openScope_eq (address : String) (m : Module) (h : EngineState) : openScope address m h =
    (.ok (ground h address).scope, laid h ((ground h address).names m h.rest.nextId)) := by
  have hroot : makeScope (Scope.root address) h =
      (.ok (ground h address).scope, laid h ⟨[], [], h.rest.nextId⟩) := by
    simp [makeScope, Scope.root, Ground.scope, ground, laid]
  simp only [openScope, bind, Computation.bind, hroot, bindImports_laid, declareAll_laid]
  rfl

/-- The scope of a module, by a walker that delays declarations as evaluation by need does. -/
theorem moduleScope_eq {W : Walker Session} {address : String} {m : Module} {h : EngineState}
    (hdelay : ∀ before d after, m.declarations = before ++ d :: after →
      let l := before.foldl (ground h address).assign ((ground h address).names m h.rest.nextId)
      W.delay (ground h address).scope d.expr (laid h l) =
        Eval.delay (ground h address).scope d.expr (laid h l)) :
    moduleScope W address m h =
      (.ok (ground h address).scope, laid h ((ground h address).layout m h.rest.nextId)) := by
  simp only [moduleScope, bind, Computation.bind, openScope_eq, assignAll_laid h address _ m.declarations hdelay]
  rfl

end Engine

end LazyModules
