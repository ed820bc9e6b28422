import Mathlib.Logic.Relation
import LazyModules.Eval
import LazyModules.Proofs.Walk.Frames

/-!
# Links

Two evaluations are compared by saying which identities, cells and functions of theirs correspond. Then it
is clear which slots, numbers, values and frames correspond: those of the same shape with corresponding
contents.

**Results.** `ValueRel.mono`, `ValueRel.flip`, `ValueRel.comp`, `ValueRel.right`, and the like for slots
and frames.
-/
namespace LazyModules.Eval

/-- Which identities, cells and functions of two sides correspond. -/
structure Links where
  ident : Nat → Nat → Prop
  cell : Nat → Nat → Prop
  closure : Closure → Closure → Prop

namespace Links

structure Le (L L' : Links) : Prop where
  ident : ∀ {i j}, L.ident i j → L'.ident i j
  cell : ∀ {i j}, L.cell i j → L'.cell i j
  closure : ∀ {f g}, L.closure f g → L'.closure f g

variable (L : Links)

inductive SlotRel : Slot → Slot → Prop where
  | constant (c : Constant) : SlotRel (.constant c) (.constant c)
  | closure {f g : Closure} (h : L.closure f g) : SlotRel (.closure f) (.closure g)
  | cell {i j : Nat} (h : L.cell i j) : SlotRel (.cell i) (.cell j)

/-- Corresponding numbers: the same one, or corresponding absences of one. -/
inductive NumberRel : Number → Number → Prop where
  | int (n : Int) : NumberRel (.int n) (.int n)
  | float (x : Float) : NumberRel (.float x) (.float x)
  | nan {i j : Nat} (h : L.ident i j) : NumberRel (.nan i) (.nan j)

/-- Corresponding fields have the same name. -/
abbrev FieldRel : String × Slot → String × Slot → Prop := EntryRel L.SlotRel

inductive ValueRel : Value → Value → Prop where
  | nil : ValueRel .nil .nil
  | flag (b : Bool) : ValueRel (.flag b) (.flag b)
  | number {m n : Number} (h : L.NumberRel m n) : ValueRel (.number m) (.number n)
  | text (s : String) : ValueRel (.text s) (.text s)
  | list {i j : Nat} {xs ys : List Slot} (hid : L.ident i j) (h : List.Forall₂ L.SlotRel xs ys) :
      ValueRel (.list i xs) (.list j ys)
  | record {i j : Nat} {xs ys : Table Slot} (hid : L.ident i j) (h : List.Forall₂ L.FieldRel xs ys) :
      ValueRel (.record i xs) (.record j ys)
  | function {f g : Closure} (h : L.closure f g) : ValueRel (.function f) (.function g)

/-- Corresponding frames bind the same names. -/
abbrev FrameRel : Frame Slot → Frame Slot → Prop := List.Forall₂ (EntryRel (Option.Rel L.SlotRel))

variable {L} {L' : Links}

/-! ## More that corresponds -/

theorem SlotRel.mono (hle : L.Le L') {x y : Slot} (h : L.SlotRel x y) : L'.SlotRel x y := by
  cases h with
  | constant c => exact .constant c
  | closure h => exact .closure (hle.closure h)
  | cell h => exact .cell (hle.cell h)

theorem NumberRel.mono (hle : L.Le L') {m n : Number} (h : L.NumberRel m n) : L'.NumberRel m n := by
  cases h with
  | int n => exact .int n
  | float x => exact .float x
  | nan h => exact .nan (hle.ident h)

theorem ValueRel.mono (hle : L.Le L') {a b : Value} (h : L.ValueRel a b) : L'.ValueRel a b := by
  cases h with
  | nil => exact .nil
  | flag b => exact .flag b
  | number h => exact .number (h.mono hle)
  | text s => exact .text s
  | list hid h => exact .list (hle.ident hid) (h.imp fun _ _ h => h.mono hle)
  | record hid h => exact .record (hle.ident hid) (h.imp fun _ _ h => h.imp fun _ _ h => h.mono hle)
  | function h => exact .function (hle.closure h)

theorem FrameRel.mono (hle : L.Le L') {f g : Frame Slot} (h : L.FrameRel f g) : L'.FrameRel f g :=
  h.imp fun _ _ h => h.imp fun _ _ h => optionRel_imp (fun _ _ => SlotRel.mono hle) h

theorem ValueRel.typeName {a b : Value} (h : L.ValueRel a b) : a.typeName = b.typeName := by
  cases h <;> rfl

theorem ValueRel.constant (c : Constant) : L.ValueRel c.value c.value := by
  cases c with
  | nil => exact .nil
  | flag b => exact .flag b
  | int n => exact .number (.int n)
  | float x => exact .number (.float x)
  | text s => exact .text s

/-! ## Arithmetic -/

theorem ofFloat_rel {i j : Nat} (hid : L.ident i j) (x : Float) :
    L.NumberRel (Number.ofFloat i x) (Number.ofFloat j x) := by
  unfold Number.ofFloat
  split
  · exact .nan hid
  · exact .float x

/-- Corresponding numbers turn into the same double. -/
theorem toFloat_rel {x y : Number} (h : L.NumberRel x y) : x.toFloat = y.toFloat := by
  cases h <;> rfl

theorem intArithmetic_rel (a : Number.Arithmetic) (m n : Int) {z : Number}
    (h : Number.intArithmetic a m n = .ok z) : L.NumberRel z z := by
  cases a with
  | add | sub | mul =>
    obtain rfl := Except.ok.inj h
    exact .int _
  | div | mod =>
    simp only [Number.intArithmetic] at h
    split at h
    · cases h
    · first
        | obtain rfl := Except.ok.inj h
          exact .int _
        | split at h
          · cases h
          · obtain rfl := Except.ok.inj h
            exact .float _

/-- Arithmetic on corresponding numbers fails in the same way or has corresponding results. -/
inductive ResultRel (L : Links) : Except Number.Fault Number → Except Number.Fault Number → Prop where
  | error (f : Number.Fault) : ResultRel L (.error f) (.error f)
  | ok {x y : Number} (h : L.NumberRel x y) : ResultRel L (.ok x) (.ok y)

theorem mixed_rel {a : Number.Arithmetic} {i j : Nat} (hid : L.ident i j) {x x' y y' : Number}
    (hx : L.NumberRel x x') (hy : L.NumberRel y y') :
    L.ResultRel
      (do return Number.ofFloat i (← Number.floatArithmetic a (← x.toFloat) (← y.toFloat)))
      (do return Number.ofFloat j (← Number.floatArithmetic a (← x'.toFloat) (← y'.toFloat))) := by
  rw [toFloat_rel hx, toFloat_rel hy]
  cases x'.toFloat with
  | error f => exact .error f
  | ok p =>
    cases y'.toFloat with
    | error f => exact .error f
    | ok q =>
      cases h : Number.floatArithmetic a p q with
      | error f =>
        simp only [bind, Except.bind, h]
        exact .error f
      | ok z =>
        simp only [bind, Except.bind, h]
        exact .ok (ofFloat_rel hid z)

theorem arithmetic_rel (a : Number.Arithmetic) {i j : Nat} (hid : L.ident i j) {x x' y y' : Number}
    (hx : L.NumberRel x x') (hy : L.NumberRel y y') :
    L.ResultRel (Number.arithmetic a i x y) (Number.arithmetic a j x' y') := by
  have hmixed := mixed_rel (a := a) hid hx hy
  cases hx with
  | int m =>
    cases hy with
    | int n =>
      cases h : Number.intArithmetic a m n with
      | error f =>
        simp only [Number.arithmetic, h]
        exact .error f
      | ok z =>
        simp only [Number.arithmetic, h]
        exact .ok (intArithmetic_rel a m n h)
    | float y => exact hmixed
    | nan h => exact hmixed
  | float x => exact hmixed
  | nan h => exact hmixed

theorem order_rel {x x' y y' : Number} (hx : L.NumberRel x x') (hy : L.NumberRel y y') :
    x.order y = x'.order y' := by
  cases hx <;> cases hy <;> rfl

theorem negate_rel {i j : Nat} (hid : L.ident i j) {x y : Number} (h : L.NumberRel x y) :
    L.NumberRel (x.negate i) (y.negate j) := by
  cases h with
  | int n => exact .int _
  | float x => exact .float _
  | nan _ => exact .nan hid

/-! ## The other way round -/

def flip (L : Links) : Links :=
  ⟨fun i j => L.ident j i, fun i j => L.cell j i, fun f g => L.closure g f⟩

theorem SlotRel.flip {x y : Slot} (h : L.SlotRel x y) : L.flip.SlotRel y x := by
  cases h with
  | constant c => exact .constant c
  | closure h => exact .closure h
  | cell h => exact .cell h

theorem NumberRel.flip {m n : Number} (h : L.NumberRel m n) : L.flip.NumberRel n m := by
  cases h with
  | int n => exact .int n
  | float x => exact .float x
  | nan h => exact .nan h

theorem ValueRel.flip {a b : Value} (h : L.ValueRel a b) : L.flip.ValueRel b a := by
  cases h with
  | nil => exact .nil
  | flag b => exact .flag b
  | number h => exact .number h.flip
  | text s => exact .text s
  | list hid h => exact .list hid (forall₂_turn (fun _ _ => SlotRel.flip) h)
  | record hid h => exact .record hid (forall₂_turn (fun _ _ => EntryRel.turn fun _ _ => SlotRel.flip) h)
  | function h => exact .function h

theorem FrameRel.flip {f g : Frame Slot} (h : L.FrameRel f g) : L.flip.FrameRel g f :=
  forall₂_turn (fun _ _ => EntryRel.turn fun _ _ => optionRel_turn fun _ _ => SlotRel.flip) h

/-! ## Through a third side -/

/-- What corresponds through something in between. -/
def comp (L L' : Links) : Links :=
  ⟨Relation.Comp L.ident L'.ident, Relation.Comp L.cell L'.cell, Relation.Comp L.closure L'.closure⟩

theorem SlotRel.comp {x y z : Slot} (h : L.SlotRel x y) (h' : L'.SlotRel y z) : (L.comp L').SlotRel x z := by
  cases h with
  | constant c => cases h'; exact .constant c
  | closure h => cases h' with | closure h' => exact .closure ⟨_, h, h'⟩
  | cell h => cases h' with | cell h' => exact .cell ⟨_, h, h'⟩

theorem NumberRel.comp {l m n : Number} (h : L.NumberRel l m) (h' : L'.NumberRel m n) :
    (L.comp L').NumberRel l n := by
  cases h with
  | int n => cases h'; exact .int n
  | float x => cases h'; exact .float x
  | nan h => cases h' with | nan h' => exact .nan ⟨_, h, h'⟩

theorem ValueRel.comp {a b c : Value} (h : L.ValueRel a b) (h' : L'.ValueRel b c) :
    (L.comp L').ValueRel a c := by
  have hslot : ∀ x y z, L.SlotRel x y → L'.SlotRel y z → (L.comp L').SlotRel x z := fun _ _ _ => SlotRel.comp
  cases h with
  | nil => cases h'; exact .nil
  | flag b => cases h'; exact .flag b
  | number h => cases h' with | number h' => exact .number (h.comp h')
  | text s => cases h'; exact .text s
  | list hid h =>
    cases h' with
    | list hid' h' => exact .list ⟨_, hid, hid'⟩ (forall₂_join hslot h h')
  | record hid h =>
    cases h' with
    | record hid' h' =>
      exact .record ⟨_, hid, hid'⟩ (forall₂_join (EntryRel.join hslot) h h')
  | function h => cases h' with | function h' => exact .function ⟨_, h, h'⟩

theorem FrameRel.comp {f g k : Frame Slot} (h : L.FrameRel f g) (h' : L'.FrameRel g k) :
    (L.comp L').FrameRel f k := by
  have hslot : ∀ x y z, L.SlotRel x y → L'.SlotRel y z → (L.comp L').SlotRel x z := fun _ _ _ => SlotRel.comp
  exact forall₂_join (EntryRel.join (optionRel_join hslot)) h h'

/-! ## Nothing but itself -/

def self : Links := ⟨Eq, Eq, Eq⟩

theorem slotRel_self : self.SlotRel = Eq := by
  funext x y
  refine propext ⟨?_, ?_⟩
  · rintro (c | ⟨⟨⟩⟩ | ⟨⟨⟩⟩) <;> rfl
  · rintro rfl
    cases x with
    | constant c => exact .constant c
    | closure f => exact .closure rfl
    | cell i => exact .cell rfl

theorem numberRel_self : self.NumberRel = Eq := by
  funext x y
  refine propext ⟨?_, ?_⟩
  · rintro (n | x | ⟨⟨⟩⟩) <;> rfl
  · rintro rfl
    cases x with
    | int n => exact .int n
    | float x => exact .float x
    | nan i => exact .nan rfl

theorem fieldRel_self : self.FieldRel = Eq := by
  funext p q
  rw [FieldRel, slotRel_self]
  exact propext Prod.ext_iff.symm

theorem valueRel_self : self.ValueRel = Eq := by
  funext a b
  refine propext ⟨?_, ?_⟩
  · rintro (_ | _ | h | _ | ⟨⟨⟩, h⟩ | ⟨⟨⟩, h⟩ | ⟨⟨⟩⟩)
    case number => rw [numberRel_self] at h; rw [h]
    case list => rw [slotRel_self, List.forall₂_eq_eq_eq] at h; rw [h]
    case record => rw [fieldRel_self, List.forall₂_eq_eq_eq] at h; rw [h]
    all_goals rfl
  · rintro rfl
    cases a with
    | nil => exact .nil
    | flag b => exact .flag b
    | number n => exact .number (numberRel_self ▸ rfl)
    | text s => exact .text s
    | list i xs => exact .list rfl (by rw [slotRel_self, List.forall₂_eq_eq_eq])
    | record i fs => exact .record rfl (by rw [fieldRel_self, List.forall₂_eq_eq_eq])
    | function f => exact .function rfl

theorem SlotRel.eq_of_le (h : L.Le self) {x y : Slot} (hxy : L.SlotRel x y) : x = y := by
  have hself := hxy.mono h
  rwa [slotRel_self] at hself

theorem ValueRel.eq_of_le (h : L.Le self) {a b : Value} (hab : L.ValueRel a b) : a = b := by
  have hself := hab.mono h
  rwa [valueRel_self] at hself

/-! ## The right side alone -/

/-- What corresponds to something on the left corresponds to itself. -/
def right (L : Links) : Links :=
  ⟨fun i j => i = j ∧ ∃ k, L.ident k j, fun i j => i = j ∧ ∃ k, L.cell k j,
    fun f g => f = g ∧ ∃ k, L.closure k g⟩

theorem right_mono (h : L.Le L') : L.right.Le L'.right where
  ident := fun ⟨hij, k, hk⟩ => ⟨hij, k, h.ident hk⟩
  cell := fun ⟨hij, k, hk⟩ => ⟨hij, k, h.cell hk⟩
  closure := fun ⟨hfg, k, hk⟩ => ⟨hfg, k, h.closure hk⟩

/-- On the right side alone, everything corresponds to itself only. -/
theorem right_le_self : L.right.Le self := ⟨And.left, And.left, And.left⟩

theorem SlotRel.eq_of_right {x y : Slot} (h : L.right.SlotRel x y) : x = y := h.eq_of_le right_le_self

theorem ValueRel.eq_of_right {a b : Value} (h : L.right.ValueRel a b) : a = b := h.eq_of_le right_le_self

theorem SlotRel.right {x y : Slot} (h : L.SlotRel x y) : L.right.SlotRel y y := by
  cases h with
  | constant c => exact .constant c
  | closure h => exact .closure ⟨rfl, _, h⟩
  | cell h => exact .cell ⟨rfl, _, h⟩

theorem NumberRel.right {m n : Number} (h : L.NumberRel m n) : L.right.NumberRel n n := by
  cases h with
  | int n => exact .int n
  | float x => exact .float x
  | nan h => exact .nan ⟨rfl, _, h⟩

theorem ValueRel.right {a b : Value} (h : L.ValueRel a b) : L.right.ValueRel b b := by
  cases h with
  | nil => exact .nil
  | flag b => exact .flag b
  | number h => exact .number h.right
  | text s => exact .text s
  | list hid h => exact .list ⟨rfl, _, hid⟩ (forall₂_right (fun _ _ => SlotRel.right) h)
  | record hid h => exact .record ⟨rfl, _, hid⟩ (forall₂_right (fun _ _ => EntryRel.right fun _ _ => SlotRel.right) h)
  | function h => exact .function ⟨rfl, _, h⟩

theorem FrameRel.right {f g : Frame Slot} (h : L.FrameRel f g) : L.right.FrameRel g g :=
  forall₂_right (fun _ _ => EntryRel.right fun _ _ => optionRel_right fun _ _ => SlotRel.right) h

end Links

end LazyModules.Eval
