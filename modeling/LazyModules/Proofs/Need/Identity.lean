import LazyModules.Value.Tree

/-!
# Identities in comparisons

Functions are compared by identity, and so are the absences of a number inside containers. A comparison is
sure if its answer would be the same whatever the identities are.

**Results.**
* `equal_relabel_imp`: the more identities coincide, the more trees are equal.
* `equal_congr`: a sure comparison has the same answer on trees that differ in their identities only.
-/
namespace LazyModules

/-- A number, or its absence with another identity. -/
def Number.relabel (f : Nat → Nat) : Number → Number
  | .int n => .int n
  | .float x => .float x
  | .nan i => .nan (f i)

namespace Tree

mutual

/-- A tree whose functions and absences of a number have other identities. -/
def relabel (f : Nat → Nat) : Tree → Tree
  | .nil => .nil
  | .flag b => .flag b
  | .number n => .number (n.relabel f)
  | .text s => .text s
  | .list xs => .list (relabelItems f xs)
  | .record fs => .record (relabelFields f fs)
  | .function i => .function (f i)

def relabelItems (f : Nat → Nat) : List Tree → List Tree
  | [] => []
  | x :: xs => relabel f x :: relabelItems f xs

def relabelFields (f : Nat → Nat) : List (String × Tree) → List (String × Tree)
  | [] => []
  | (k, x) :: fs => (k, relabel f x) :: relabelFields f fs

end

/-- A tree all of whose identities are the same. -/
def blur (i : Nat) (t : Tree) : Tree := t.relabel fun _ => i

mutual

/-- Whether a tree has no absence of a number in it. -/
def noNan : Tree → Bool
  | .number (.nan _) => false
  | .list xs => noNanItems xs
  | .record fs => noNanFields fs
  | .nil | .flag _ | .number _ | .text _ | .function _ => true

def noNanItems : List Tree → Bool
  | [] => true
  | x :: xs => noNan x && noNanItems xs

def noNanFields : List (String × Tree) → Bool
  | [] => true
  | (_, x) :: fs => noNan x && noNanFields fs

end

/-- Whether it does not matter for a comparison which identities of two trees are the same. -/
def sure (x y : Tree) : Bool := (x.blur 0).equal (y.blur 0) == (x.blur 0).equal (y.blur 1)

variable {f g f' g' : Nat → Nat}

theorem relabelItems_eq_map (xs : List Tree) : relabelItems f xs = xs.map (relabel f) := by
  induction xs with
  | nil => rfl
  | cons x xs ih => rw [relabelItems, ih, List.map_cons]

theorem relabelFields_eq_map (fs : List (String × Tree)) :
    relabelFields f fs = fs.map (Prod.map id (relabel f)) := by
  induction fs with
  | nil => rfl
  | cons p fs ih => rw [relabelFields, ih, List.map_cons, Prod.map, id]

theorem lookup_relabelFields (k : String) (fs : List (String × Tree)) :
    (relabelFields f fs).lookup k = (fs.lookup k).map (relabel f) := by
  induction fs with
  | nil => rfl
  | cons p fs ih =>
    obtain ⟨n, t⟩ := p
    rw [relabelFields, List.lookup_cons, List.lookup_cons]
    split
    · rfl
    · exact ih

theorem length_relabelFields (fs : List (String × Tree)) : (relabelFields f fs).length = fs.length := by
  rw [relabelFields_eq_map, List.length_map]

mutual

theorem relabel_relabel (t : Tree) : (t.relabel f).relabel g = t.relabel fun i => g (f i) := by
  match t with
  | .nil | .flag _ | .text _ | .function _ => simp [relabel]
  | .number n => cases n <;> simp [relabel, Number.relabel]
  | .list xs => simp [relabel, relabelItems_relabelItems xs]
  | .record fs => simp [relabel, relabelFields_relabelFields fs]

theorem relabelItems_relabelItems (xs : List Tree) :
    relabelItems g (relabelItems f xs) = relabelItems (fun i => g (f i)) xs := by
  match xs with
  | [] => rfl
  | x :: xs => simp [relabelItems, relabel_relabel x, relabelItems_relabelItems xs]

theorem relabelFields_relabelFields (fs : List (String × Tree)) :
    relabelFields g (relabelFields f fs) = relabelFields (fun i => g (f i)) fs := by
  match fs with
  | [] => rfl
  | (k, x) :: fs => simp [relabelFields, relabel_relabel x, relabelFields_relabelFields fs]

end

mutual

theorem relabel_id (t : Tree) : (t.relabel fun i => i) = t := by
  match t with
  | .nil | .flag _ | .text _ | .function _ => simp [relabel]
  | .number n => cases n <;> simp [relabel, Number.relabel]
  | .list xs => simp [relabel, relabelItems_id xs]
  | .record fs => simp [relabel, relabelFields_id fs]

theorem relabelItems_id (xs : List Tree) : relabelItems (fun i => i) xs = xs := by
  match xs with
  | [] => rfl
  | x :: xs => simp [relabelItems, relabel_id x, relabelItems_id xs]

theorem relabelFields_id (fs : List (String × Tree)) : relabelFields (fun i => i) fs = fs := by
  match fs with
  | [] => rfl
  | (k, x) :: fs => simp [relabelFields, relabel_id x, relabelFields_id fs]

end

/-! ## Comparisons -/

theorem sameNan_relabel_imp (h : ∀ i j, f i = g j → f' i = g' j) {x y : Tree}
    (hxy : (x.relabel f).sameNan (y.relabel g) = true) :
    (x.relabel f').sameNan (y.relabel g') = true := by
  cases x <;> cases y <;> simp only [relabel, sameNan, Bool.false_eq_true] at hxy ⊢
  case number m n =>
    cases m <;> cases n <;> simp only [Number.relabel, Number.sameNan, beq_iff_eq, Bool.false_eq_true] at hxy ⊢
    exact h _ _ hxy

/-- An absence of a number equals no number. -/
theorem number_equal_relabel (m n : Number) : (m.relabel f).equal (n.relabel g) = m.equal n := by
  cases m <;> cases n <;> rfl

/-- Where a number is compared, identities do not matter. -/
theorem equal_number_relabel (m : Number) (y : Tree) :
    equal (.number (m.relabel f)) (y.relabel g) = equal (.number m) y := by
  cases y <;> simp only [relabel, equal, number?]
  case flag b => exact number_equal_relabel (g := g) m (.int _)
  case number n => exact number_equal_relabel m n

mutual

/-- The more identities coincide, the more trees are equal. -/
theorem equal_relabel_imp (h : ∀ i j, f i = g j → f' i = g' j) (x y : Tree)
    (hxy : (x.relabel f).equal (y.relabel g) = true) : (x.relabel f').equal (y.relabel g') = true := by
  match x with
  | .nil => cases y <;> simp_all [relabel, equal]
  | .text _ => cases y <;> simp_all [relabel, equal]
  | .flag b =>
    have hflag (y : Tree) : equal (.flag b) y = equal (.number (.int (if b then 1 else 0))) y := by
      cases y <;> rfl
    have hint (f g : Nat → Nat) : equal (.number (.int (if b then 1 else 0))) (y.relabel g) = _ :=
      equal_number_relabel (f := f) (.int _) y
    rw [relabel, hflag, hint f] at hxy ⊢
    exact hxy
  | .number n =>
    simp only [relabel, equal_number_relabel] at hxy ⊢
    exact hxy
  | .function i =>
    cases y <;> simp only [relabel, equal, beq_iff_eq, Bool.false_eq_true] at hxy ⊢
    exact h _ _ hxy
  | .list xs =>
    cases y <;> simp only [relabel, equal, Bool.false_eq_true] at hxy ⊢
    case list ys => exact equalItems_relabel_imp h xs ys hxy
  | .record fs =>
    cases y <;> simp only [relabel, equal, Bool.false_eq_true] at hxy ⊢
    case record gs =>
      simp only [length_relabelFields, Bool.and_eq_true] at hxy ⊢
      exact ⟨hxy.1, equalFields_relabel_imp h fs gs hxy.2⟩

theorem equalItems_relabel_imp (h : ∀ i j, f i = g j → f' i = g' j) (xs ys : List Tree)
    (hxs : equalItems (relabelItems f xs) (relabelItems g ys) = true) :
    equalItems (relabelItems f' xs) (relabelItems g' ys) = true := by
  match xs, ys with
  | [], [] => rfl
  | [], _ :: _ | _ :: _, [] => simp [relabelItems, equalItems] at hxs
  | x :: xs, y :: ys =>
    simp only [relabelItems, equalItems, Bool.and_eq_true, Bool.or_eq_true] at hxs ⊢
    exact ⟨hxs.1.imp (sameNan_relabel_imp h) (equal_relabel_imp h x y), equalItems_relabel_imp h xs ys hxs.2⟩

theorem equalFields_relabel_imp (h : ∀ i j, f i = g j → f' i = g' j) (xs ys : List (String × Tree))
    (hxs : equalFields (relabelFields f xs) (relabelFields g ys) = true) :
    equalFields (relabelFields f' xs) (relabelFields g' ys) = true := by
  match xs with
  | [] => rfl
  | (k, x) :: xs =>
    simp only [relabelFields, equalFields, Bool.and_eq_true, lookup_relabelFields] at hxs ⊢
    refine ⟨?_, equalFields_relabel_imp h xs ys hxs.2⟩
    cases hy : ys.lookup k with
    | none => simp [hy] at hxs
    | some y =>
      simp only [hy, Option.map_some, Bool.or_eq_true] at hxs ⊢
      exact hxs.1.imp (sameNan_relabel_imp h) (equal_relabel_imp h x y)

end

/-- Where a comparison is sure, trees may be compared without their identities. -/
theorem equal_of_sure {x y : Tree} (h : sure x y = true) : x.equal y = (x.blur 0).equal (y.blur 0) := by
  have hup : x.equal y = true → (x.blur 0).equal (y.blur 0) = true := by
    have := @equal_relabel_imp (fun i => i) (fun i => i) (fun _ => 0) (fun _ => 0) (fun _ _ _ => rfl) x y
    rwa [relabel_id, relabel_id] at this
  have hdown : (x.blur 0).equal (y.blur 1) = true → x.equal y = true := by
    have := @equal_relabel_imp (fun _ => 0) (fun _ => 1) (fun i => i) (fun i => i)
      (fun _ _ h => absurd h (by decide)) x y
    rwa [relabel_id, relabel_id] at this
  rw [sure, beq_iff_eq] at h
  rw [← h] at hdown
  exact Bool.eq_iff_iff.mpr ⟨hup, hdown⟩

/-- Trees that are the same without their identities are so whatever stands for these. -/
theorem blur_eq_blur {x y : Tree} {i : Nat} (h : x.blur i = y.blur i) (j : Nat) : x.blur j = y.blur j := by
  have hblur (t : Tree) : (t.blur i).blur j = t.blur j := relabel_relabel t
  rw [← hblur x, h, hblur y]

theorem sure_congr {x x' y y' : Tree} (hx : x.blur 0 = x'.blur 0) (hy : y.blur 0 = y'.blur 0) :
    sure x y = sure x' y' := by
  rw [sure, sure, hx, hy, blur_eq_blur hy 1]

/-- A sure comparison has the same answer on trees that differ in their identities only. -/
theorem equal_congr {x x' y y' : Tree} (hx : x.blur 0 = x'.blur 0) (hy : y.blur 0 = y'.blur 0)
    (h : sure x y = true) : x.equal y = x'.equal y' := by
  have h' : sure x' y' = true := (sure_congr hx hy).symm.trans h
  rw [equal_of_sure h, equal_of_sure h', hx, hy]

end Tree

end LazyModules
