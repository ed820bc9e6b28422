import LazyModules.Proofs.Engine.Texts
import LazyModules.Proofs.Need.Twins
import LazyModules.Proofs.Order.Plain
import LazyModules.Proofs.Walk.Display

/-!
# Engines that are alike

Two engines read texts that say the same, in another order. They do the same things at the same time, so they have
frames at the same places. Yet the cells and identities of a module come in the order of its declarations: which of
them correspond has to be kept in mind (`Pairs`). Engines are alike if corresponding cells are in the same state,
frames bind names to corresponding slots, and what they know of modules corresponds.

**Results.** Engines that are alike stay so with an identity more (`useId`), a cell more (`pushCell`), a frame more
(`pushFrame`), corresponding cells in another state (`setCell`), and the layouts of modules that mean the same (`lay`).
-/
namespace LazyModules.Engine

open Eval

/-- Which cells and identities of two engines correspond. -/
structure Pairs where
  cell : Nat → Nat → Prop
  ident : Nat → Nat → Prop

structure Pairs.Le (p q : Pairs) : Prop where
  cell : ∀ {i j}, p.cell i j → q.cell i j
  ident : ∀ {i j}, p.ident i j → q.ident i j

/-- What corresponds then. Functions say the same, and their scopes have the same places. -/
def Pairs.links (p : Pairs) : Links where
  ident := p.ident
  cell := p.cell
  closure f g := p.ident f.id g.id ∧ f.params = g.params ∧ f.body.plain = g.body.plain ∧ f.scope = g.scope

theorem Pairs.Le.links {p q : Pairs} (h : p.Le q) : p.links.Le q.links where
  ident := h.ident
  cell := h.cell
  closure := fun ⟨hid, hrest⟩ => ⟨h.ident hid, hrest⟩

inductive JobRel : Job → Job → Prop where
  | expr {e e' : Expr} (h : e.plain = e'.plain) (s : Scope) : JobRel (.expr e s) (.expr e' s)
  | load (importer name target : String) : JobRel (.load importer name target) (.load importer name target)

inductive CellRel (L : Links) : Cell Job Value → Cell Job Value → Prop where
  | waiting {job job' : Job} (h : JobRel job job') : CellRel L (.waiting job) (.waiting job')
  | busy {job job' : Job} (h : JobRel job job') : CellRel L (.busy job) (.busy job')
  | done {job job' : Job} {a b : Value} (h : JobRel job job') (hab : L.ValueRel a b) :
      CellRel L (.done job a) (.done job' b)

theorem CellRel.mono {L L' : Links} (hle : L.Le L') {x y : Cell Job Value} (h : CellRel L x y) : CellRel L' x y := by
  cases h with
  | waiting h => exact .waiting h
  | busy h => exact .busy h
  | done h hab => exact .done h (hab.mono hle)

/-- Whenever one answer is a text that says something, so is the other, and it says the same. -/
def SaysSame (c : Config) (address : String) (o o' : Outcome Accident Document) : Prop :=
  ∀ points m, o = .ok (.text points) → moduleOf c address (Text.legible points) = some m →
    ∃ points' m', o' = .ok (.text points') ∧ moduleOf c address (Text.legible points') = some m' ∧ m.Alike m'

/-- What two engines know of modules corresponds. -/
structure SessionRel (c : Config) (L : Links) (s s' : Session) : Prop where
  modules : ∀ a, Option.Rel Module.Alike (Table.find? s.modules a) (Table.find? s'.modules a)
  values : ∀ a, Option.Rel L.ValueRel (Table.find? s.values a) (Table.find? s'.values a)
  evaluating : s.evaluating = s'.evaluating
  offers : ∀ a, SaysSame c a (s.library.offer a) (s'.library.offer a)

theorem SessionRel.mono {c : Config} {L L' : Links} (hle : L.Le L') {s s' : Session} (h : SessionRel c L s s') :
    SessionRel c L' s s' :=
  { h with values := fun a => optionRel_imp (fun _ _ => Links.ValueRel.mono hle) (h.values a) }

structure Alike (c : Config) (p : Pairs) (h h' : EngineState) : Prop where
  cells : ∀ {i j}, p.cell i j → ∃ x y, h.cells[i]? = some x ∧ h'.cells[j]? = some y ∧ CellRel p.links x y
  cell_unique : OneToOne p.cell
  idents : ∀ {i j}, p.ident i j → i < h.rest.nextId ∧ j < h'.rest.nextId
  ident_unique : OneToOne p.ident
  size : h.rest.frames.size = h'.rest.frames.size
  frames : ∀ k name, Option.Rel (Option.Rel p.links.SlotRel) (Table.find? (h.rest.frames.frame k) name)
    (Table.find? (h'.rest.frames.frame k) name)
  session : SessionRel c p.links h.rest.outer h'.rest.outer

/-- Pairs behind others. -/
theorem oneToOne_or {R S : Nat → Nat → Prop} (hR : OneToOne R) (hS : OneToOne S) {i₀ j₀ : Nat}
    (hlt : ∀ {i j}, R i j → i < i₀ ∧ j < j₀) (hle : ∀ {i j}, S i j → i₀ ≤ i ∧ j₀ ≤ j) :
    OneToOne fun i j => R i j ∨ S i j := by
  constructor
  rintro i i' j j' (hij | hij) (hij' | hij')
  · exact hR.iff hij hij'
  · have := hlt hij
    have := hle hij'
    omega
  · have := hle hij
    have := hlt hij'
    omega
  · exact hS.iff hij hij'

/-- Some pairs and one more. -/
def morePairs (R : Nat → Nat → Prop) (i₀ j₀ : Nat) (i j : Nat) : Prop := R i j ∨ i = i₀ ∧ j = j₀

theorem oneToOne_morePairs {R : Nat → Nat → Prop} (h : OneToOne R) {i₀ j₀ : Nat}
    (hlt : ∀ {i j}, R i j → i < i₀ ∧ j < j₀) : OneToOne (morePairs R i₀ j₀) := by
  refine oneToOne_or h ⟨?_⟩ hlt fun {i j} hij => by omega
  rintro i i' j j' ⟨rfl, rfl⟩ ⟨rfl, rfl⟩
  exact ⟨fun _ => rfl, fun _ => rfl⟩

namespace Alike

variable {c : Config} {p q : Pairs} {h h' : EngineState}

theorem cell_lt (ha : Alike c p h h') {i j : Nat} (hij : p.cell i j) : i < h.cells.size ∧ j < h'.cells.size := by
  obtain ⟨x, y, hx, hy, -⟩ := ha.cells hij
  exact ⟨(Array.getElem?_eq_some_iff.mp hx).1, (Array.getElem?_eq_some_iff.mp hy).1⟩

theorem setOuter (ha : Alike c p h h') {s s' : Session} (hs : SessionRel c p.links s s') :
    Alike c p (Heap.setOuter h s) (Heap.setOuter h' s') :=
  { ha with session := hs }

/-- An identity more on either side. -/
theorem useId (ha : Alike c p h h') :
    Alike c ⟨p.cell, morePairs p.ident h.rest.nextId h'.rest.nextId⟩ (Heap.useId h) (Heap.useId h') := by
  have hle : p.Le ⟨p.cell, morePairs p.ident h.rest.nextId h'.rest.nextId⟩ := ⟨id, .inl⟩
  refine ⟨fun hij => ?_, ha.cell_unique, fun {i j} hij => ?_, oneToOne_morePairs ha.ident_unique ha.idents,
    ha.size, fun k name => ?_, ha.session.mono hle.links⟩
  · obtain ⟨x, y, hx, hy, hxy⟩ := ha.cells hij
    exact ⟨x, y, hx, hy, hxy.mono hle.links⟩
  · simp only [Heap.useId]
    rcases hij with hij | ⟨rfl, rfl⟩
    · have := ha.idents hij
      omega
    · omega
  · exact optionRel_imp (fun _ _ => optionRel_imp fun _ _ => Links.SlotRel.mono hle.links) (ha.frames k name)

/-- A cell more on either side, for jobs that say the same. -/
theorem pushCell (ha : Alike c p h h') {job job' : Job} (hjob : JobRel job job') :
    Alike c ⟨morePairs p.cell h.cells.size h'.cells.size, p.ident⟩ (Heap.pushCell h job) (Heap.pushCell h' job') := by
  have hle : p.Le ⟨morePairs p.cell h.cells.size h'.cells.size, p.ident⟩ := ⟨.inl, id⟩
  refine ⟨?_, oneToOne_morePairs ha.cell_unique ha.cell_lt, ha.idents, ha.ident_unique, ha.size, fun k name => ?_,
    ha.session.mono hle.links⟩
  · rintro i j (hij | ⟨rfl, rfl⟩)
    · obtain ⟨x, y, hx, hy, hxy⟩ := ha.cells hij
      obtain ⟨hi, hj⟩ := ha.cell_lt hij
      exact ⟨x, y, (Heap.getElem?_pushCell_of_lt hi job).trans hx, (Heap.getElem?_pushCell_of_lt hj job').trans hy,
        hxy.mono hle.links⟩
    · exact ⟨_, _, Heap.getElem?_pushCell_size h job, Heap.getElem?_pushCell_size h' job', .waiting hjob⟩
  · exact optionRel_imp (fun _ _ => optionRel_imp fun _ _ => Links.SlotRel.mono hle.links) (ha.frames k name)

theorem frame_push (fs : Frames Slot) (f : Frame Slot) (k : Nat) :
    Frames.frame (fs.push f) k = if k = fs.size then f else fs.frame k := by
  rw [Frames.frame, Array.getElem?_push]
  split <;> rfl

/-- A frame more on either side, with corresponding bindings. -/
theorem pushFrame (ha : Alike c p h h') {f f' : Frame Slot}
    (hf : ∀ name, Option.Rel (Option.Rel p.links.SlotRel) (Table.find? f name) (Table.find? f' name)) :
    Alike c p (Heap.pushFrame h f) (Heap.pushFrame h' f') := by
  refine { ha with size := ?_, frames := fun k name => ?_ }
  · simp only [Heap.pushFrame, Array.size_push, ha.size]
  · simp only [Heap.pushFrame, frame_push, ha.size]
    split
    · exact hf name
    · exact ha.frames k name

/-- Corresponding cells in another state. -/
theorem setCell (ha : Alike c p h h') {i j : Nat} (hij : p.cell i j) {x y : Cell Job Value}
    (hxy : CellRel p.links x y) : Alike c p (h.setCell i x) (h'.setCell j y) := by
  refine { ha with cells := fun {i' j'} hij' => ?_ }
  obtain ⟨hi, hj⟩ := ha.cell_lt hij
  by_cases hi' : i = i'
  · obtain rfl := hi'
    obtain rfl := (ha.cell_unique.iff hij hij').mp rfl
    refine ⟨x, y, ?_, ?_, hxy⟩
    · exact Array.getElem?_setIfInBounds_self_of_lt hi
    · exact Array.getElem?_setIfInBounds_self_of_lt hj
  · have hj' : j ≠ j' := fun h => hi' ((ha.cell_unique.iff hij hij').mpr h)
    obtain ⟨x', y', hx', hy', hxy'⟩ := ha.cells hij'
    refine ⟨x', y', ?_, ?_, hxy'⟩
    · rw [Heap.getElem?_setCell_ne h hi', hx']
    · rw [Heap.getElem?_setCell_ne h' hj', hy']

end Alike

/-! ## Layouts -/

section Layouts

variable {c : Config} {p : Pairs} {h h' : EngineState} {l l' : Layout}

/-- The cells that two layouts have under the same name. -/
def CellPair (l l' : Layout) (i j : Nat) : Prop :=
  ∃ name, Table.find? l.frame name = some (some (.cell i)) ∧ Table.find? l'.frame name = some (some (.cell j))

/-- The identities of the functions that two layouts have under the same name. -/
def IdentPair (l l' : Layout) (i j : Nat) : Prop :=
  ∃ name f g, Table.find? l.frame name = some (some (.closure f)) ∧
    Table.find? l'.frame name = some (some (.closure g)) ∧ i = f.id ∧ j = g.id

/-- Some pairs, and those of two layouts. -/
def Pairs.lay (p : Pairs) (l l' : Layout) : Pairs where
  cell i j := p.cell i j ∨ CellPair l l' i j
  ident i j := p.ident i j ∨ IdentPair l l' i j

/-- A slot behind what is in a heap. -/
def Behind (h : EngineState) : Slot → Prop
  | .constant _ => True
  | .closure f => h.rest.nextId ≤ f.id
  | .cell i => h.cells.size ≤ i

/-- Layouts of modules that mean the same, each behind what is in a heap. -/
structure Laid (address : String) (m m' : Module) (h h' : EngineState) (l l' : Layout) : Prop where
  left : (ground h address).Fits h.rest.nextId (fun _ => False) l m.entries
  right : (ground h' address).Fits h'.rest.nextId (fun _ => False) l' m'.entries
  alike : m.Alike m'

theorem behind_of_made {address name : String} {entry : Entry} {x : Slot}
    (hx : (ground h address).Made h.rest.nextId l name entry x) : Behind h x := by
  cases hx with
  | constant c n => trivial
  | closure params body n hfirst hid => exact hfirst
  | load hi => exact Nat.le_add_right _ _
  | cell hi _ _ => exact Nat.le_add_right _ _

/-- Slots of two layouts that were made for what says the same. -/
inductive Matched (g g' : Ground) (l l' : Layout) : Slot → Slot → Prop where
  | constant (c : Constant) : Matched g g' l l' (.constant c) (.constant c)
  | closure {f f' : Closure} (hparams : f.params = f'.params) (hbody : f.body.plain = f'.body.plain)
      (hscope : f.scope = f'.scope) : Matched g g' l l' (.closure f) (.closure f')
  | cell {i j : Nat} {job job' : Job} (hi : l.jobs[i]? = some job) (hj : l'.jobs[j]? = some job')
      (hjob : JobRel job job') : Matched g g' l l' (.cell (g.cell + i)) (.cell (g'.cell + j))

theorem matched_of_made {g g' : Ground} {first first' : Nat} {name : String} {entry entry' : Entry} {x y : Slot}
    (haddress : g.address = g'.address) (hscope : g.scope = g'.scope) (hx : g.Made first l name entry x)
    (hy : g'.Made first' l' name entry' y) (hentry : entry.plain = entry'.plain) : Matched g g' l l' x y := by
  cases entry with
  | load target =>
    cases entry' with
    | expr e' => cases hentry
    | load target' =>
      obtain rfl := Entry.load.inj hentry
      cases hx with
      | load hi =>
        cases hy with
        | load hj =>
          rw [haddress] at hi
          exact .cell hi hj (.load _ _ _)
  | expr e =>
    cases entry' with
    | load target' => cases hentry
    | expr e' =>
      have hplain : e.plain = e'.plain := Entry.expr.inj hentry
      have hlike := Expr.like_of_plain hplain
      cases hx with
      | constant c n =>
        cases hlike
        cases hy with
        | constant c n' => exact .constant c
        | cell _ hliteral _ => exact absurd rfl (hliteral _ _)
      | closure params body n hfirst hid =>
        cases hlike
        cases hy with
        | closure params body' n' hfirst' hid' => exact .closure rfl (Expr.body_of_plain hplain) hscope
        | cell _ _ hlambda => exact absurd rfl (hlambda _ _ _)
      | cell hi hliteral hlambda =>
        cases hy with
        | constant c n' =>
          cases hlike
          exact absurd rfl (hliteral _ _)
        | closure params body' n' hfirst' hid' =>
          cases hlike
          exact absurd rfl (hlambda _ _ _)
        | cell hj _ _ =>
          rw [hscope] at hi
          exact .cell hi hj (.expr hplain _)

namespace Laid

variable {address : String} {m m' : Module}

/-- Under a name both layouts have slots for what says the same, or neither has one. -/
theorem slots (hl : Laid address m m' h h' l l') (hsize : h.rest.frames.size = h'.rest.frames.size) (name : String) :
    Option.Rel (Option.Rel fun x y => Matched (ground h address) (ground h' address) l l' x y ∧ Behind h x ∧ Behind h' y)
      (Table.find? l.frame name) (Table.find? l'.frame name) := by
  have hscope : (ground h address).scope = (ground h' address).scope := by
    simp only [Ground.scope, ground, hsize]
  have hleft := hl.left.made name id
  have hright := hl.right.made name id
  have hentries := hl.alike.entries name
  generalize Table.find? l.frame name = b, Table.find? l'.frame name = b' at hleft hright
  cases hentry : Table.find? m.entries name with
  | none =>
    have hentry' : Table.find? m'.entries name = none := by
      rw [hentry] at hentries
      exact Option.map_eq_none_iff.mp hentries.symm
    rw [hentry] at hleft
    rw [hentry'] at hright
    cases hleft
    cases hright
    exact .none
  | some entry =>
    rw [hentry] at hentries hleft
    obtain ⟨entry', hentry', hplain⟩ := Option.map_eq_some_iff.mp hentries.symm
    rw [hentry'] at hright
    cases hleft with
    | some hleft =>
      cases hright with
      | some hright =>
        cases hleft with
        | some hx =>
          cases hright with
          | some hy =>
            exact .some (.some ⟨matched_of_made rfl hscope hx hy hplain.symm, behind_of_made hx, behind_of_made hy⟩)

theorem matched (hl : Laid address m m' h h' l l') (hsize : h.rest.frames.size = h'.rest.frames.size) {name : String}
    {x y : Slot} (hx : Table.find? l.frame name = some (some x)) (hy : Table.find? l'.frame name = some (some y)) :
    Matched (ground h address) (ground h' address) l l' x y ∧ Behind h x ∧ Behind h' y := by
  have hslot := hl.slots hsize name
  rw [hx, hy] at hslot
  cases hslot with
  | some hslot => cases hslot with | some hslot => exact hslot

/-- Cells under the same name wait to do jobs that say the same. -/
theorem cells (hl : Laid address m m' h h' l l') (hsize : h.rest.frames.size = h'.rest.frames.size) {i j : Nat}
    (hij : CellPair l l' i j) : ∃ job job', (laid h l).cells[i]? = some (.waiting job) ∧
      (laid h' l').cells[j]? = some (.waiting job') ∧ JobRel job job' := by
  obtain ⟨name, hi, hj⟩ := hij
  obtain ⟨hmatched, hi, hj⟩ := hl.matched hsize hi hj
  generalize hx : Slot.cell i = x, hy : Slot.cell j = y at hmatched
  cases hmatched with
  | constant c => cases hx
  | closure hparams hbody hscope => cases hx
  | @cell i' j' job job' hi' hj' hjob =>
    obtain rfl := Slot.cell.inj hx
    obtain rfl := Slot.cell.inj hy
    refine ⟨job, job', ?_, ?_, hjob⟩
    · rw [getElem?_cells_laid, if_neg (Nat.not_lt_of_le hi)]
      simp only [ground, Nat.add_sub_cancel_left, hi', Option.map_some]
    · rw [getElem?_cells_laid, if_neg (Nat.not_lt_of_le hj)]
      simp only [ground, Nat.add_sub_cancel_left, hj', Option.map_some]

theorem cell_unique (hl : Laid address m m' h h' l l') : OneToOne (CellPair l l') := by
  constructor
  rintro i i' j j' ⟨name, hi, hj⟩ ⟨name', hi', hj'⟩
  exact (hl.left.cell_eq_iff hi hi').trans (hl.right.cell_eq_iff hj hj').symm

theorem ident_unique (hl : Laid address m m' h h' l l') : OneToOne (IdentPair l l') := by
  constructor
  rintro i i' j j' ⟨name, f, g, hf, hg, rfl, rfl⟩ ⟨name', f', g', hf', hg', rfl, rfl⟩
  exact (hl.left.ident_eq_iff hf hf').trans (hl.right.ident_eq_iff hg hg').symm

/-- Under a name both layouts have corresponding slots, or neither has one. -/
theorem slotRel (hl : Laid address m m' h h' l l') (hsize : h.rest.frames.size = h'.rest.frames.size) (p : Pairs)
    (name : String) : Option.Rel (Option.Rel (p.lay l l').links.SlotRel) (Table.find? l.frame name)
      (Table.find? l'.frame name) := by
  have hslot := hl.slots hsize name
  generalize hb : Table.find? l.frame name = b, hb' : Table.find? l'.frame name = b' at hslot
  cases hslot with
  | none => exact .none
  | some hslot =>
    cases hslot with
    | none => exact .some .none
    | some hslot =>
      refine .some (.some ?_)
      cases hslot.1 with
      | constant c => exact .constant c
      | closure hparams hbody hscope => exact .closure ⟨.inr ⟨name, _, _, hb, hb', rfl, rfl⟩, hparams, hbody, hscope⟩
      | cell hi hj hjob => exact .cell (.inr ⟨name, hb, hb'⟩)

end Laid

end Layouts

namespace Alike

variable {c : Config} {p : Pairs} {h h' : EngineState}

/-- Layouts of modules that mean the same, on either side. -/
theorem lay (ha : Alike c p h h') {address : String} {m m' : Module} {l l' : Layout}
    (hl : Laid address m m' h h' l l') : Alike c (p.lay l l') (laid h l) (laid h' l') := by
  have hle : p.Le (p.lay l l') := ⟨.inl, .inl⟩
  have hcell_le {i j : Nat} (hij : CellPair l l' i j) : h.cells.size ≤ i ∧ h'.cells.size ≤ j := by
    obtain ⟨name, hi, hj⟩ := hij
    exact (hl.matched ha.size hi hj).2
  have hident_le {i j : Nat} (hij : IdentPair l l' i j) : h.rest.nextId ≤ i ∧ h'.rest.nextId ≤ j := by
    obtain ⟨name, f, g, hf, hg, rfl, rfl⟩ := hij
    exact (hl.matched ha.size hf hg).2
  refine ⟨?_, oneToOne_or ha.cell_unique hl.cell_unique ha.cell_lt hcell_le, ?_,
    oneToOne_or ha.ident_unique hl.ident_unique ha.idents hident_le, ?_, fun k name => ?_, ha.session.mono hle.links⟩
  · rintro i j (hij | hij)
    · obtain ⟨x, y, hx, hy, hxy⟩ := ha.cells hij
      obtain ⟨hi, hj⟩ := ha.cell_lt hij
      refine ⟨x, y, ?_, ?_, hxy.mono hle.links⟩
      · rw [getElem?_cells_laid, if_pos hi, hx]
      · rw [getElem?_cells_laid, if_pos hj, hy]
    · obtain ⟨job, job', hi, hj, hjob⟩ := hl.cells ha.size hij
      exact ⟨_, _, hi, hj, .waiting hjob⟩
  · rintro i j (hij | ⟨name, f, g, hf, hg, rfl, rfl⟩)
    · have := ha.idents hij
      have := hl.left.nextId
      have := hl.right.nextId
      simp only [laid]
      omega
    · exact ⟨hl.left.within hf, hl.right.within hg⟩
  · simp only [laid, Array.size_push, ha.size]
  · simp only [laid, frame_push, ha.size]
    split
    · exact hl.slotRel ha.size p name
    · exact optionRel_imp (fun _ _ => optionRel_imp fun _ _ => Links.SlotRel.mono hle.links) (ha.frames k name)

/-- Scopes have corresponding slots for a name. -/
theorem lookup? (ha : Alike c p h h') (s : Scope) (name : String) :
    Option.Rel (Option.Rel p.links.SlotRel) (s.lookup? h.rest.frames name) (s.lookup? h'.rest.frames name) := by
  simp only [Scope.lookup?]
  induction s.frames with
  | nil => exact .none
  | cons k ks ih =>
    have hframe := ha.frames k name
    simp only [Scope.lookupIn]
    generalize Table.find? (h.rest.frames.frame k) name = x, Table.find? (h'.rest.frames.frame k) name = y at hframe
    cases hframe with
    | some hxy => exact .some hxy
    | none => exact ih

end Alike

end LazyModules.Engine
