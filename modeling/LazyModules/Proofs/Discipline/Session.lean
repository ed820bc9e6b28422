import LazyModules.Proofs.Discipline.Engine

/-!
# Conducts about the session

A manner says how the session may go on, whatever expressions do: they leave it alone, and only the steps of
the engine count. Every manner is a conduct, and one that leaves cells as they should be: a cell is busy
after a computation if it was busy before, and keeps its result if it had one.

**Results.** `CellsKept.run`: a cell that runs. `Manner.conduct`: the conduct of a manner.
-/
namespace LazyModules

/-- The same cells are busy, and every result is as it was. -/
structure CellsKept (cells cells' : Array (Cell Job Value)) : Prop where
  busy : ∀ i : Nat, cells'[i]?.any Cell.isBusy = cells[i]?.any Cell.isBusy
  done : ∀ (i : Nat) job v, cells[i]? = some (.done job v) → cells'[i]? = some (.done job v)

namespace CellsKept

variable {σ ε : Type}

theorem refl (cells : Array (Cell Job Value)) : CellsKept cells cells := ⟨fun _ => rfl, fun _ _ _ => id⟩

theorem trans {cells cells' cells'' : Array (Cell Job Value)} (h : CellsKept cells cells')
    (h' : CellsKept cells' cells'') : CellsKept cells cells'' :=
  ⟨fun i => (h'.busy i).trans (h.busy i), fun i job v hi => h'.done i job v (h.done i job v hi)⟩

theorem push (cells : Array (Cell Job Value)) (job : Job) : CellsKept cells (cells.push (.waiting job)) := by
  refine ⟨fun i => ?_, fun i job' v hi => ?_⟩
  · rw [Array.getElem?_push]
    split
    · rename_i hi
      simp [hi, Cell.isBusy]
    · rfl
  · obtain ⟨hlt, -⟩ := Array.getElem?_eq_some_iff.mp hi
    rw [Array.getElem?_push, if_neg (Nat.ne_of_lt hlt), hi]

/-- A cell that ran is not busy, as it was before. -/
theorem run {m m' : Heap σ} {i : Nat} {job : Job} (hi : m.cells[i]? = some (.waiting job)) (o : Outcome ε Value)
    (h : CellsKept (m.setCell i (.busy job)).cells m'.cells) :
    CellsKept m.cells (m'.setCell i (.after job o)).cells := by
  refine ⟨fun k => ?_, fun k job' v hk => ?_⟩
  · by_cases hki : i = k
    · subst hki
      have hafter : (m'.setCell i (.after job o)).cells[i]?.any Cell.isBusy = false := by
        rw [Machine.setCell, Array.getElem?_setIfInBounds_self]
        split
        · cases o <;> rfl
        · rfl
      rw [hafter, hi]
      rfl
    · have hbusy := h.busy k
      rwa [Heap.getElem?_setCell_ne _ hki] at hbusy ⊢
  · have hki : i ≠ k := by
      rintro rfl
      rw [hi] at hk
      cases hk
    rw [Heap.getElem?_setCell_ne _ hki]
    exact h.done k job' v (by rw [Heap.getElem?_setCell_ne _ hki, hk])

end CellsKept

namespace Engine

open Eval

/-- What is known of sessions, and how the engine may lead from one to another. -/
structure Manner (c : Config) where
  inv : Session → Prop
  leads : Session → Outcome Trouble Unit → Session → Prop
  ask : Session → String → Prop
  /-- expressions leave the session alone, and report nothing -/
  refl : ∀ {s o}, inv s → (∀ phase, o ≠ .error (.reported phase)) → leads s o s
  trans : ∀ {s o s' s''}, leads s (.ok ()) s' → leads s' o s'' → leads s o s''
  ask_of_not_mem : ∀ {s address}, inv s → address ∉ s.evaluating → ask s address
  known : ∀ {s address v}, inv s → ask s address → Table.find? s.values address = some v →
    inv (s.note (.demanded address)) ∧ leads s (.ok ()) (s.note (.demanded address))
  unread : ∀ {s address o s'}, inv s → ask s address → Table.find? s.values address = none →
    Parses c address (s.note (.demanded address)) o s' → (∀ m, o ≠ .ok m) → ∀ failed,
    inv (s'.setFailed failed) ∧ leads s o.ending (s'.setFailed failed)
  opens : ∀ {s address m s' l}, inv s → ask s address → Table.find? s.values address = none →
    Parses c address (s.note (.demanded address)) (.ok m) s' → Library.Tells 0 s'.library l →
    inv ((s'.setLibrary l).enter address)
  settles : ∀ {s address m s' l o s₁ o' s₂}, inv s → ask s address → Table.find? s.values address = none →
    Parses c address (s.note (.demanded address)) (.ok m) s' → Library.Tells 0 s'.library l → inv s₁ →
    leads ((s'.setLibrary l).enter address) o.ending s₁ → Settles address s₁ o o' s₂ →
    inv s₂ ∧ leads s o'.ending s₂
  blames : ∀ {s s' e address t s''}, inv s → inv s' → leads s (.error (.semantic e)) s' →
    Blames e address s' t s'' → inv s'' ∧ leads s (.error t) s''

namespace Manner

variable {c : Config} (K : Manner c)

def outlook : Outlook Session where
  inv h := K.inv h.rest.outer
  leads h o h' := CellsKept h.cells h'.cells ∧ K.leads h.rest.outer o h'.rest.outer
  visit _ _ _ := True

variable {K} {h : EngineState}

theorem slot (x : Slot) : K.outlook.Slot h x :=
  Slot.holds_of_forall (fun _ _ => trivial) (fun _ => trivial) x

theorem value (v : Value) : K.outlook.Value h v :=
  Value.holds_of_forall (fun _ _ => trivial) (fun _ => trivial) v

/-- A step that leaves the session alone. -/
theorem ends_ok {α : Type} {V : EngineState → α → Prop} {r : Outcome Trouble α × EngineState}
    (hinv : K.inv h.rest.outer) (hok : ∃ a, r.1 = .ok a ∧ V r.2 a) (hcells : CellsKept h.cells r.2.cells)
    (hsame : r.2.rest.outer = h.rest.outer) : K.outlook.Ends h V r := by
  obtain ⟨a, ha, hV⟩ := hok
  refine ⟨?_, ⟨hcells, ?_⟩, fun b hb => ?_⟩
  · change K.inv r.2.rest.outer
    rwa [hsame]
  · rw [hsame, ha]
    exact K.refl hinv nofun
  · rw [ha] at hb
    obtain rfl := Outcome.ok.inj hb
    exact hV

theorem leads_error {e : Trouble} (hinv : K.inv h.rest.outer) (he : ∀ phase, e ≠ .reported phase) :
    K.outlook.leads h (.error e) h :=
  ⟨.refl _, K.refl hinv fun phase h => he phase (Outcome.error.inj h)⟩

variable (K) in
def discipline : Discipline Session where
  toOutlook := K.outlook
  refl hinv := ⟨.refl _, K.refl hinv nofun⟩
  trans hle hle' := ⟨hle.1.trans hle'.1, K.trans hle.2 hle'.2⟩
  visit_mono _ := id
  cell_mono _ := id
  part _ _ := trivial
  found _ _ _ := slot _
  freshId hinv := ends_ok hinv ⟨_, rfl, trivial⟩ (.refl _) rfl
  alloc hinv _ := ends_ok hinv ⟨_, rfl, trivial⟩ (.push _ _) rfl
  enter hinv _ _ _ := by
    rw [enter_eq]
    exact ends_ok hinv ⟨_, rfl, trivial⟩ (.refl _) rfl
  done _ _ _ := value _
  run {h i job} hinv _ hi := by
    refine ⟨hinv, ?_, fun r hends => ⟨hends.inv, ⟨?_, hends.leads.2⟩, fun v _ => value v⟩⟩
    · cases job <;> trivial
    · exact CellsKept.run hi r.1 hends.leads.1
  exhausted hinv := ⟨.refl _, K.refl hinv nofun⟩
  accident a hinv := leads_error hinv nofun
  objection hinv _ _ := leads_error hinv nofun
  undefined hinv _ _ := leads_error hinv nofun
  circular hinv _ := leads_error hinv nofun
  circularName hinv _ _ := leads_error hinv nofun

open Discipline

theorem modifyFrames_keeps (f : Frames Slot → Frames Slot) :
    K.discipline.Keeps h (fun _ _ => True) (modifyFrames f) (modifyFrames f) :=
  .of_ends fun hinv => ends_ok hinv ⟨_, rfl, trivial⟩ (.refl _) rfl

theorem bindImports_keeps (address : String) (scope : Scope) (imports : List (String × String)) :
    K.discipline.Keeps h (fun _ _ => True) (bindImports address scope imports)
      (bindImports address scope imports) := by
  induction imports generalizing h with
  | nil => exact Keeps.pure trivial
  | cons i imports ih =>
    have halloc : K.discipline.Keeps h (fun _ _ => True) (Machine.alloc (.load address i.1 i.2))
        (Machine.alloc (.load address i.1 i.2)) :=
      .of_ends fun hinv => ends_ok hinv ⟨_, rfl, trivial⟩ (.push _ _) rfl
    exact Keeps.bind halloc fun _ _ _ _ => Keeps.bind (modifyFrames_keeps _) fun _ _ _ _ => ih

theorem declareAll_keeps (scope : Scope) (ds : List Declaration) :
    K.discipline.Keeps h (fun _ _ => True) (declareAll scope ds) (declareAll scope ds) := by
  induction ds generalizing h with
  | nil => exact Keeps.pure trivial
  | cons d ds ih => exact Keeps.bind (modifyFrames_keeps _) fun _ _ _ _ => ih

theorem assignAll_keeps {W W' : Walker Session} (hW : K.discipline.Respects W W') (scope : Scope)
    (ds : List Declaration) : K.discipline.Keeps h (fun _ _ => True) (assignAll (W.delay scope) scope ds)
      (assignAll (W'.delay scope) scope ds) := by
  induction ds generalizing h with
  | nil => exact Keeps.pure trivial
  | cons d ds ih =>
    exact Keeps.bind (hW.delay trivial) fun _ _ _ _ => Keeps.bind (modifyFrames_keeps _) fun _ _ _ _ => ih

theorem moduleScope_keeps {W W' : Walker Session} (hW : K.discipline.Respects W W') (address : String)
    (m : Module) : K.discipline.Keeps h (fun _ _ => True) (moduleScope W address m)
      (moduleScope W' address m) := by
  have hroot : K.discipline.Keeps h (fun _ _ => True) (makeScope (Scope.root address))
      (makeScope (Scope.root address)) :=
    .of_ends fun hinv => ends_ok hinv ⟨_, rfl, trivial⟩ (.refl _) rfl
  have hopen : K.discipline.Keeps h (fun _ _ => True) (openScope address m) (openScope address m) := by
    refine Keeps.bind hroot fun _ scope _ _ => ?_
    refine Keeps.bind (bindImports_keeps address scope m.imports) fun _ _ _ _ => ?_
    exact Keeps.bind (declareAll_keeps scope m.declarations) fun _ _ _ _ => Keeps.pure trivial
  refine Keeps.bind hopen fun _ scope _ _ => ?_
  exact Keeps.bind (assignAll_keeps hW scope m.declarations) fun _ _ _ _ => Keeps.pure trivial

variable (K) in
def conduct : Conduct c where
  toDiscipline := K.discipline
  ask h := K.ask h.rest.outer
  ask_of_load hinv _ := K.ask_of_not_mem hinv
  known hinv hask hv := by
    obtain ⟨hinv', hleads⟩ := K.known hinv hask hv
    exact ⟨hinv', ⟨.refl _, hleads⟩, fun v _ => value v⟩
  unread hinv hask hv hparses ho failed := by
    obtain ⟨hinv', hleads⟩ := K.unread hinv hask hv hparses ho failed
    exact ⟨hinv', .refl _, hleads⟩
  opens hinv hask hopening :=
    ⟨K.opens hinv hask hopening.unvalued hopening.parses hopening.library, fun hW =>
      (moduleScope_keeps hW _ _).imp fun _ _ _ _ _ _ => trivial⟩
  settles hinv hask hopening hends hsettles := by
    obtain ⟨hinv', hleads⟩ := K.settles hinv hask hopening.unvalued hopening.parses hopening.library
      hends.inv hends.leads.2 hsettles
    exact ⟨hinv', ⟨hends.leads.1, hleads⟩, fun v _ => value v⟩
  cycle hinv _ _ := leads_error hinv nofun
  blames hinv hinv' hleads hblames := by
    obtain ⟨hinv'', hleads'⟩ := K.blames hinv hinv' hleads.2 hblames
    exact ⟨hinv'', hleads.1, hleads'⟩

end Manner

end Engine

end LazyModules
