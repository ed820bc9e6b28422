import LazyModules.Proofs.Meaning.Making

/-!
# The names of a module

A module that begins gets a scope and, for each of its names, a cell or a function. What they stand for is said by the
names themselves (`Origin.declared`), so that it does not matter when and where the module begins. The first time there
is nothing yet that comes from the module. If it begins again then everything has been dropped that it made before.

**Results.** `extension_layout`: the world with the names of a module in it.
-/
namespace LazyModules

namespace Ground.Fits

variable {g : Ground} {first : Nat} {l : Layout} {t : Table Entry}

/-- Every slot of a layout was made for what its name stands for. -/
theorem exists_entry (hfits : g.Fits first (fun _ => False) l t) {name : String} {x : Slot}
    (hx : Table.find? l.frame name = some (some x)) :
    ∃ entry, Table.find? t name = some entry ∧ g.Made first l name entry x := by
  have hmade := hfits.made name id
  rw [hx] at hmade
  generalize hentry : Table.find? t name = entry at hmade
  cases entry with
  | none => cases hmade
  | some entry =>
    rcases hmade with ⟨⟨hmade⟩⟩
    exact ⟨entry, rfl, hmade⟩

end Ground.Fits

namespace Meaning.World

open Engine

variable {c : Config} (w : World c) (a : String) (x : Module)

abbrev layout : Layout := (ground w.heap a).layout x w.heap.rest.nextId

abbrev heapLayout : EngineState := laid w.heap (w.layout a x)

/-- The names of a module, and what they stand for. -/
def mapLayout : Map where
  ident i o := w.map.ident i o ∨ ∃ name f, o = .declared a name ∧ f.id = i ∧
    Table.find? (w.layout a x).frame name = some (some (.closure f))
  cell i y := w.map.cell i y ∨ ∃ name entry, y = entrySlot a name entry ∧ Table.find? x.entries name = some entry ∧
    Table.find? (w.layout a x).frame name = some (some (.cell i))
  scope s t := w.map.scope s t ∨ s = (ground w.heap a).scope ∧ t = .root a
  used o := w.map.used o ∨ ∃ name, o = .declared a name

theorem le_mapLayout : w.map.Le (w.mapLayout a x) := ⟨.inl, .inl, .inl, .inl⟩

variable {w a x}

theorem fits : (ground w.heap a).Fits w.heap.rest.nextId (fun _ => False) (w.layout a x) x.entries :=
  Ground.fits_layout _ _ _

theorem root_used : (Scope.root a).All (w.mapLayout a x).used := fun name => .inr ⟨name, rfl⟩

/-- The slot of a name stands for what the name stands for. -/
theorem slotRel_layout {name : String} {entry : Entry} {y : LazyModules.Slot}
    (hentry : Table.find? x.entries name = some entry)
    (hy : Table.find? (w.layout a x).frame name = some (some y))
    (hmade : (ground w.heap a).Made w.heap.rest.nextId (w.layout a x) name entry y) :
    Meaning.SlotRel (w.mapLayout a x) (fun _ => True) y (entrySlot a name entry) := by
  cases hmade with
  | load h => exact .cell (.inr ⟨name, _, rfl, hentry, hy⟩) trivial
  | constant k n => exact .constant k
  | @closure params body n id hfirst hid =>
    exact .closure (f := ⟨id, params, body, _⟩) (.inr ⟨name, _, rfl, rfl, hy⟩) (.inr ⟨rfl, rfl⟩) trivial
      (fun _ => trivial)
  | @cell e i h hliteral hlambda =>
    exact .cell (.inr ⟨name, _, rfl, hentry, hy⟩) (entrySlot_all (p := fun _ => True) (fun _ => trivial) name (.expr e))

/-- The scope of a module has slots for its names. -/
theorem suits_root (hsaid : ∀ {P}, Compat c P w.session → P a = some x) :
    Suits c (w.mapLayout a x) (w.heapLayout a x) (ground w.heap a).scope (.root a) := by
  refine ⟨fun k hk => ?_, fun name => ⟨(Table.find? x.entries name).map (entrySlot a name), fun hP => ?_, ?_⟩⟩
  · obtain rfl := List.mem_singleton.mp hk
    simp [laid, ground]
  · simp only [Scope.lookup, hsaid hP, Option.bind_some]
  · have hframe : (ground w.heap a).scope.lookup? (w.heapLayout a x).rest.frames name =
        Table.find? (w.layout a x).frame name := by
      change (Scope.lookupIn _ name [w.heap.rest.frames.size]) = _
      simp only [Scope.lookupIn, Frames.frame, frame_laid, Option.getD_some]
      cases Table.find? (w.layout a x).frame name <;> rfl
    rw [hframe]
    have hmade := (w.fits (a := a) (x := x)).made name id
    generalize hy : Table.find? (w.layout a x).frame name = y at hmade
    generalize hentry : Table.find? x.entries name = entry at hmade
    cases entry with
    | none =>
      cases hmade
      exact .none
    | some entry =>
      rcases hmade with ⟨⟨hmade⟩⟩
      exact .some ⟨_, rfl, slotRel_layout hentry hy hmade⟩

theorem entrySlot_origin {name : String} {entry : Entry} {i : Nat}
    (hmade : (ground w.heap a).Made w.heap.rest.nextId (w.layout a x) name entry (.cell i)) :
    (entrySlot a name entry).origin = .declared a name := by
  cases hmade with
  | load h => rfl
  | @cell e i h hliteral hlambda =>
    cases e with
    | literal k n => exact absurd rfl (hliteral k n)
    | lambda params body n => exact absurd rfl (hlambda params body n)
    | _ => rfl

/-- The cell of a name is new and waits to do what the name stands for. -/
theorem cell_layout {name : String} {entry : Entry} {i : Nat}
    (hmade : (ground w.heap a).Made w.heap.rest.nextId (w.layout a x) name entry (.cell i)) :
    w.heap.cells[i]? = none ∧ ∃ job, (w.heapLayout a x).cells[i]? = some (.waiting job) ∧
      JobRel (w.mapLayout a x) job (entrySlot a name entry) := by
  have hcell {k : Nat} {job : Job} (hjob : (w.layout a x).jobs[k]? = some job) :
      w.heap.cells[w.heap.cells.size + k]? = none ∧
        (w.heapLayout a x).cells[w.heap.cells.size + k]? = some (.waiting job) := by
    refine ⟨Array.getElem?_eq_none (Nat.le_add_right _ _), ?_⟩
    rw [getElem?_cells_laid, if_neg (by omega), Nat.add_sub_cancel_left, hjob]
    rfl
  cases hmade with
  | @load target k h => exact ⟨(hcell h).1, _, (hcell h).2, .load a name target _⟩
  | @cell e k h hliteral hlambda =>
    refine ⟨(hcell h).1, _, (hcell h).2, ?_⟩
    have hscope : (w.mapLayout a x).scope (ground w.heap a).scope (.root a) := .inr ⟨rfl, rfl⟩
    cases e with
    | literal k n => exact absurd rfl (hliteral k n)
    | lambda params body n => exact absurd rfl (hlambda params body n)
    | _ => exact .expr hscope _ _

/-- The world with the names of a module that has just begun. -/
theorem extension_layout (hbusy : w.Task (.module a) .busy) (hfirst : ∀ {o}, w.map.used o → ¬ o.From (.module a))
    (hsaid : ∀ {P}, Compat c P w.session → P a = some x) :
    Extension c w.map (w.mapLayout a x) w.heap (w.heapLayout a x) w.count w.count
      fun o => ∃ name, o = .declared a name := by
  have hunused {name : String} (hused : w.map.used (.declared a name)) : False := hfirst hused rfl
  have hfits := w.fits (a := a) (x := x)
  have horigin {name : String} {entry : Entry} {i : Nat} (hentry : Table.find? x.entries name = some entry)
      (hi : Table.find? (w.layout a x).frame name = some (some (.cell i))) :
      (entrySlot a name entry).origin = .declared a name := by
    obtain ⟨entry', hentry', hmade⟩ := hfits.exists_entry hi
    obtain rfl := Option.some.inj (hentry.symm.trans hentry')
    exact entrySlot_origin hmade
  refine
    { le := w.le_mapLayout a x, used := Iff.rfl, cells := ?_, size := by simp [laid], frames := ?_
      nextId := hfits.nextId, outer := rfl, count := fun _ => Nat.le_refl _, ident := ?_, ident_unique := ?_
      cell := ?_, cell_unique := ?_, scope := ?_, unused := ?_, first := ?_, waiting := ?_, unmade := ?_ }
  · intro i y hy
    rw [getElem?_cells_laid, if_pos (Array.getElem?_eq_some_iff.mp hy).1]
    exact hy
  · intro k hk
    exact Heap.getElem?_pushFrame_of_lt hk (w.layout a x).frame
  · rintro i o (hid | ⟨name, f, rfl, rfl, hf⟩)
    · exact .inl hid
    · obtain ⟨entry, -, hmade⟩ := hfits.exists_entry hf
      cases hmade with
      | closure params body n hle hlt => exact .inr ⟨⟨name, rfl⟩, hle, hlt⟩
  · rintro i j o o' (hid | ⟨name, f, rfl, rfl, hf⟩) (hid' | ⟨name', f', rfl, rfl, hf'⟩) ⟨n, hn⟩ ⟨n', hn'⟩
    · exact (hunused (hn ▸ w.valid.ident_used hid)).elim
    · exact (hunused (hn ▸ w.valid.ident_used hid)).elim
    · exact (hunused (hn' ▸ w.valid.ident_used hid')).elim
    · rw [hfits.ident_eq_iff hf hf', Origin.declared.injEq, eq_self, true_and]
  · rintro i y (hy | ⟨name, entry, rfl, hentry, hi⟩)
    · exact .inl hy
    · obtain ⟨entry', hentry', hmade⟩ := hfits.exists_entry hi
      obtain rfl := Option.some.inj (hentry.symm.trans hentry')
      obtain ⟨hnone, hjob⟩ := cell_layout hmade
      have horigin := horigin hentry hi
      refine .inr ⟨⟨name, horigin⟩, hnone, hjob, entrySlot_all root_used name entry, ?_, horigin ▸ trivial⟩
      -- all names of a module come from the module and from nothing else
      have hnear : (Scope.root a).All (w.map.Near w.heap (.declared a name)) := fun _ _ _ hfrom => hfrom
      rw [horigin]
      exact entrySlot_all hnear name entry
  · rintro i j y z (hy | ⟨name, entry, rfl, hentry, hi⟩) (hz | ⟨name', entry', rfl, hentry', hj⟩) ⟨n, hn⟩ ⟨n', hn'⟩ heq
    · exact (hunused (hn ▸ w.valid.origin_used hy)).elim
    · exact (hunused (hn ▸ w.valid.origin_used hy)).elim
    · exact (hunused (hn' ▸ w.valid.origin_used hz)).elim
    · have hcell := hfits.cell_eq_iff hi hj
      have hname : name = name' := by
        rcases heq with heq | heq
        · exact hcell.mp heq
        · rw [horigin hentry hi, horigin hentry' hj] at heq
          exact (Origin.declared.inj heq).2
      subst hname
      rw [Option.some.inj (hentry.symm.trans hentry')]
      exact ⟨hcell.mpr rfl, rfl⟩
  · rintro s t (hs | ⟨rfl, rfl⟩)
    · exact .inl hs
    · exact .inr ⟨root_used, suits_root hsaid⟩
  · rintro o ⟨name, rfl⟩ hused
    exact hunused hused
  · rintro o y ⟨name, rfl⟩ (hy | ⟨name', rfl⟩) hfrom
    · exact hfirst hy (hfrom.trans rfl)
    · cases hfrom
  · rintro q o hq ⟨name, rfl⟩ hfrom
    cases (w.valid.task_unique hq hbusy hfrom).2
  · rintro y n o - - ⟨name, rfl⟩
    constructor
    · intro heq
      cases heq
    · intro hfrom
      cases hfrom

end Meaning.World

end LazyModules
