import LazyModules.Eval.Display
import LazyModules.Token.Scan

/-!
# Data and how it is written

Data is a tree of nil, flags, integers, texts, lists and records. `Tree.Readable` leaves out what has no
spelling that could be read back: functions, doubles, integers of too many digits, texts with a carriage
return, and keys that are not names. `Tree.write` spells a tree.

A value is data if it is evaluated all the way down to a tree, and no container is met inside itself on the
way (`unfoldWith`).

**Results.** `deepWith_of_unfoldWith`: the tree is the value evaluated all the way down. `displayWith_writes`: what
is displayed is the spelling of the tree, and nothing else happens to the heap.
-/
namespace LazyModules

def Scan.IsName (k : String) : Prop := scan k.toList = ⟨[⟨.name k, 0⟩], .ended⟩

/-- An integer of at most so many digits is spelled by its digits, after its sign. -/
theorem Number.text_int {n : Int} (hn : (Nat.toDigits 10 n.natAbs).length ≤ digitLimit) :
    (Number.int n).text = some (String.ofList
      (if n < 0 then '-' :: Nat.toDigits 10 n.natAbs else Nat.toDigits 10 n.natAbs)) := by
  have hlt : n.natAbs < 10 ^ digitLimit := (Nat.length_toDigits_le_iff (by omega) (by decide)).mp hn
  simp only [text, intText, Nat.pow_eq]
  rw [if_neg (Nat.not_le.mpr hlt)]

namespace Tree

mutual

/-- How a tree is spelled. Functions are not data and have no spelling. -/
def write : Tree → List Char
  | .nil => ['n', 'i', 'l']
  | .flag true => ['t', 'r', 'u', 'e']
  | .flag false => ['f', 'a', 'l', 's', 'e']
  | .number n => (n.text.getD "").toList
  | .text s => Literal.write s.toList
  | .list ts => '[' :: List.intercalate [',', ' '] (writeItems ts) ++ [']']
  | .record fs => '{' :: List.intercalate [',', ' '] (writeFields fs) ++ ['}']
  | .function _ => []

def writeItems : List Tree → List (List Char)
  | [] => []
  | t :: ts => write t :: writeItems ts

def writeFields : List (String × Tree) → List (List Char)
  | [] => []
  | (k, t) :: fs => (k.toList ++ ':' :: ' ' :: write t) :: writeFields fs

end

theorem writeItems_eq_map (ts : List Tree) : writeItems ts = ts.map write := by
  induction ts with
  | nil => rfl
  | cons t ts ih => rw [writeItems, ih, List.map_cons]

theorem writeFields_eq_map (fs : List (String × Tree)) :
    writeFields fs = fs.map fun p => p.1.toList ++ ':' :: ' ' :: p.2.write := by
  induction fs with
  | nil => rfl
  | cons p fs ih => rw [writeFields, ih, List.map_cons]

/-- Data whose spelling can be read back. -/
inductive Readable : Tree → Prop where
  | nil : Readable .nil
  | flag (b : Bool) : Readable (.flag b)
  | int {n : Int} (hn : (Nat.toDigits 10 n.natAbs).length ≤ Number.digitLimit) : Readable (.number (.int n))
  | text {s : String} (hs : '\r' ∉ s.toList) : Readable (.text s)
  | list {ts : List Tree} (hts : ∀ t ∈ ts, Readable t) : Readable (.list ts)
  | record {fs : List (String × Tree)} (hkeys : (Table.keys fs).Nodup) (hnames : ∀ p ∈ fs, Scan.IsName p.1)
      (hfs : ∀ p ∈ fs, Readable p.2) : Readable (.record fs)

end Tree

namespace Eval

variable {σ α β γ : Type}

/-- Evaluates a value all the way down to the given depth, inside the containers with the identities `busy`.
There is no tree for a container that is met inside itself. -/
def unfoldWith (force : Slot → Eval σ Value) : (depth : Nat) → (busy : List Nat) → Value → Eval σ Tree
  | 0, _, _ => Computation.exhaust
  | depth + 1, busy, v =>
    match v with
    | .nil => pure .nil
    | .flag b => pure (.flag b)
    | .number n => pure (.number n)
    | .text s => pure (.text s)
    | .function f => pure (.function f.id)
    | .list id items =>
      if busy.contains id then Computation.exhaust else do
      return .list (← mapList (fun s => do unfoldWith force depth (id :: busy) (← force s)) items)
    | .record id fields =>
      if busy.contains id then Computation.exhaust else do
      return .record (← mapList
        (fun f => do return (f.1, ← unfoldWith force depth (id :: busy) (← force f.2))) fields)

/-! ## Computations that succeed -/

theorem bind_eq_ok {c : Eval σ α} {f : α → Eval σ β} {h h' : Heap σ} {b : β} (hb : (c >>= f) h = (.ok b, h')) :
    ∃ a h₁, c h = (.ok a, h₁) ∧ f a h₁ = (.ok b, h') := by
  change c.bind f h = _ at hb
  rcases hc : c h with ⟨o, h₁⟩
  simp only [Computation.bind, hc] at hb
  cases o with
  | ok a => exact ⟨a, h₁, rfl, hb⟩
  | error e => cases hb
  | exhausted => cases hb

theorem bind_of_ok {c : Eval σ α} {f : α → Eval σ β} {h h₁ : Heap σ} {a : α} (ha : c h = (.ok a, h₁)) :
    (c >>= f) h = f a h₁ := by
  change c.bind f h = _
  simp only [Computation.bind, ha]

/-- Computations that do the same to the heap, one for each element. Their results differ by `r`. -/
theorem mapList_map {f : α → Eval σ β} {g : α → Eval σ γ} {r : β → γ} {P : β → Prop}
    (hfg : ∀ x h y h', f x h = (.ok y, h') → P y → g x h = (.ok (r y), h')) {xs : List α} {h h' : Heap σ}
    {ys : List β} (hys : mapList f xs h = (.ok ys, h')) (hP : ∀ y ∈ ys, P y) :
    mapList g xs h = (.ok (ys.map r), h') := by
  induction xs generalizing h ys with
  | nil => cases hys; rfl
  | cons x xs ih =>
    obtain ⟨y, h₁, hy, hrest⟩ := bind_eq_ok hys
    obtain ⟨zs, h₂, hzs, hpure⟩ := bind_eq_ok hrest
    cases hpure
    have hx := hfg x h y h₁ hy (hP y (by simp))
    exact (bind_of_ok hx).trans ((bind_of_ok (ih hzs fun z hz => hP z (by simp [hz]))))

/-! ## Values that are data -/

variable {force : Slot → Eval σ Value}

theorem deepWith_of_unfoldWith {depth : Nat} {busy : List Nat} {v : Value} {t : Tree} {h h' : Heap σ}
    (ht : unfoldWith force depth busy v h = (.ok t, h')) : deepWith force depth v h = (.ok t, h') := by
  induction depth generalizing busy v t h h' with
  | zero => cases ht
  | succ depth ih =>
    cases v with
    | nil | flag _ | number _ | text _ | function _ => exact ht
    | list i items =>
      simp only [unfoldWith] at ht
      split at ht
      · cases ht
      · obtain ⟨ts, h₁, hts, hpure⟩ := bind_eq_ok ht
        cases hpure
        have hitems := mapList_map (r := id) (P := fun _ => True)
          (g := fun x => do deepWith force depth (← force x)) (fun x h₀ t h₁ hx _ => ?_) hts (by simp)
        · rw [List.map_id] at hitems
          exact bind_of_ok hitems
        · obtain ⟨v, h₂, hv, ht⟩ := bind_eq_ok hx
          exact (bind_of_ok hv).trans (ih ht)
    | record i fields =>
      simp only [unfoldWith] at ht
      split at ht
      · cases ht
      · obtain ⟨fs, h₁, hfs, hpure⟩ := bind_eq_ok ht
        cases hpure
        have hfields := mapList_map (r := id) (P := fun _ => True)
          (g := fun f => do return (f.1, ← deepWith force depth (← force f.2))) (fun p h₀ q h₁ hp _ => ?_)
          hfs (by simp)
        · rw [List.map_id] at hfields
          exact bind_of_ok hfields
        · obtain ⟨v, h₂, hv, hrest⟩ := bind_eq_ok hp
          obtain ⟨t, h₃, ht, hpure⟩ := bind_eq_ok hrest
          cases hpure
          exact (bind_of_ok hv).trans (bind_of_ok (ih ht))

theorem showWith_writes {depth : Nat} {busy : List Nat} {v : Value} {t : Tree} {h h' : Heap σ}
    (ht : unfoldWith force depth busy v h = (.ok t, h')) (hreadable : t.Readable) :
    showWith force depth busy v h = (.ok (String.ofList t.write), h') := by
  induction depth generalizing busy v t h h' with
  | zero => cases ht
  | succ depth ih =>
    cases v with
    | nil => cases ht; rfl
    | flag b => cases ht; cases b <;> rfl
    | text s => cases ht; rfl
    | function f => cases ht; cases hreadable
    | number n =>
      cases ht
      obtain ⟨s, hs⟩ : ∃ s, n.text = some s := by
        cases hreadable with
        | int hn => exact ⟨_, Number.text_int hn⟩
      simp only [showWith, Tree.write, hs, Option.getD_some, String.ofList_toList]
      rfl
    | list i items =>
      simp only [unfoldWith] at ht
      simp only [showWith]
      split at ht
      · cases ht
      · rename_i hbusy
        obtain ⟨ts, h₁, hts, hpure⟩ := bind_eq_ok ht
        cases hpure
        cases hreadable with
        | list hall =>
          simp only [hbusy]
          have hitems := mapList_map (r := fun t => String.ofList t.write) (P := Tree.Readable)
            (g := fun x => do showWith force depth (i :: busy) (← force x)) (fun x h₀ t h₁ hx ht => ?_) hts hall
          · refine (bind_of_ok hitems).trans (congrArg (fun s => (Outcome.ok s, h')) (String.toList_injective ?_))
            simp [Tree.write, Tree.writeItems_eq_map, String.toList_intercalate, Function.comp_def]
          · obtain ⟨v, h₂, hv, hrest⟩ := bind_eq_ok hx
            exact (bind_of_ok hv).trans (ih hrest ht)
    | record i fields =>
      simp only [unfoldWith] at ht
      simp only [showWith]
      split at ht
      · cases ht
      · rename_i hbusy
        obtain ⟨fs, h₁, hfs, hpure⟩ := bind_eq_ok ht
        cases hpure
        cases hreadable with
        | record _ _ hall =>
          simp only [hbusy]
          have hfields := mapList_map (r := fun p => p.1 ++ ": " ++ String.ofList p.2.write)
            (P := fun p => p.2.Readable)
            (g := fun f => do return f.1 ++ ": " ++ (← showWith force depth (i :: busy) (← force f.2)))
            (fun p h₀ q h₁ hp hq => ?_) hfs hall
          · refine (bind_of_ok hfields).trans (congrArg (fun s => (Outcome.ok s, h')) (String.toList_injective ?_))
            simp [Tree.write, Tree.writeFields_eq_map, String.toList_intercalate, Function.comp_def]
          · obtain ⟨v, h₂, hv, hrest⟩ := bind_eq_ok hp
            obtain ⟨t, h₃, ht, hpure⟩ := bind_eq_ok hrest
            cases hpure
            exact (bind_of_ok hv).trans (bind_of_ok (ih ht hq))

/-- Data other than a text alone is displayed as it is spelled. -/
theorem displayWith_writes {depth : Nat} {v : Value} {t : Tree} {h h' : Heap σ}
    (ht : unfoldWith force depth [] v h = (.ok t, h')) (hreadable : t.Readable) (hv : ∀ s, v ≠ .text s) :
    displayWith force depth v h = (.ok (String.ofList t.write), h') := by
  cases v with
  | text s => exact absurd rfl (hv s)
  | _ => exact showWith_writes ht hreadable

end Eval

end LazyModules
