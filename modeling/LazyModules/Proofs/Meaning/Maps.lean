import LazyModules.Engine
import LazyModules.Proofs.Meaning.Semantics
import LazyModules.Proofs.Walk.Links

/-!
# What a heap stands for

A map tells what the identities, cells and scopes of a heap stand for. Then it is clear which slots and values mean
what. Every such relation comes with a property of all origins that the meaning mentions, which says for instance that
nothing in it comes from a certain evaluation.

**Results.** `ValueRel.carry`: a value means the same by another map that keeps everything with the property.
`Scope.All.lookup`: what a name stands for mentions nothing else than the scope does.
-/
namespace LazyModules.Meaning

/-! ## Origins that are mentioned -/

mutual

def Slot.All (p : Origin → Prop) : Slot → Prop
  | .constant _ => True
  | .closure o _ _ s => p o ∧ s.All p
  | .thunk o _ s => p o ∧ s.All p
  | .load o _ => p o

/-- A property of all origins that a scope mentions. A module is mentioned with all names that it could have. -/
def Scope.All (p : Origin → Prop) : Scope → Prop
  | .root a => ∀ name, p (.declared a name)
  | .bind _ x s => x.All p ∧ s.All p

end

mutual

theorem Slot.All.imp₂ {p q r : Origin → Prop} (h : ∀ o, p o → q o → r o) :
    {x : Slot} → x.All p → x.All q → x.All r
  | .constant _, _, _ => trivial
  | .closure o _ _ _, hp, hq => ⟨h o hp.1 hq.1, Scope.All.imp₂ h hp.2 hq.2⟩
  | .thunk o _ _, hp, hq => ⟨h o hp.1 hq.1, Scope.All.imp₂ h hp.2 hq.2⟩
  | .load o _, hp, hq => h o hp hq

theorem Scope.All.imp₂ {p q r : Origin → Prop} (h : ∀ o, p o → q o → r o) :
    {s : Scope} → s.All p → s.All q → s.All r
  | .root _, hp, hq => fun name => h _ (hp name) (hq name)
  | .bind _ _ _, hp, hq => ⟨Slot.All.imp₂ h hp.1 hq.1, Scope.All.imp₂ h hp.2 hq.2⟩

end

theorem Slot.All.imp {p q : Origin → Prop} (h : ∀ o, p o → q o) {x : Slot} (hx : x.All p) : x.All q :=
  hx.imp₂ (fun o hp _ => h o hp) hx

theorem Scope.All.imp {p q : Origin → Prop} (h : ∀ o, p o → q o) {s : Scope} (hs : s.All p) : s.All q :=
  hs.imp₂ (fun o hp _ => h o hp) hs

section Mentioned

variable {p : Origin → Prop}

theorem suspend_all {o : Origin} {s : Scope} (ho : p o) (hs : s.All p) (e : Expr) : (suspend o s e).All p := by
  cases e with
  | literal c n => trivial
  | _ => exact ⟨ho, hs⟩

theorem entrySlot_all {a : String} (ha : (Scope.root a).All p) (name : String) (entry : Entry) :
    (entrySlot a name entry).All p := by
  cases entry with
  | load target => exact ha name
  | expr e => exact suspend_all (ha name) ha e

/-- What a name stands for mentions nothing else than the scope does. -/
theorem Scope.All.lookup {P : Program} {name : String} : {s : Scope} → s.All p → {x : Slot} →
    s.lookup P name = some x → x.All p
  | .root a, hs, x, hx => by
    obtain ⟨m, -, hx⟩ := Option.bind_eq_some_iff.mp hx
    obtain ⟨entry, -, rfl⟩ := Option.map_eq_some_iff.mp hx
    exact entrySlot_all hs name entry
  | .bind n y s, hs, x, hx => by
    simp only [Scope.lookup] at hx
    split at hx
    · obtain rfl := Option.some.inj hx
      exact hs.1
    · exact Scope.All.lookup hs.2 hx

theorem Scope.All.enter {s : Scope} (hs : s.All p) {bindings : List (String × Slot)}
    (h : ∀ b ∈ bindings, b.2.All p) : (s.enter bindings).All p := by
  induction bindings generalizing s with
  | nil => exact hs
  | cons b bs ih =>
    refine ih (s := .bind b.1 b.2 s) ⟨h b (List.mem_cons_self ..), hs⟩ fun b' hb' => ?_
    exact h b' (List.mem_cons_of_mem _ hb')

end Mentioned

/-- Of several bindings of a name the last counts, and all count more than those outside. -/
theorem Scope.lookup_enter (P : Program) (s : Scope) (bindings : List (String × Slot)) (name : String) :
    (s.enter bindings).lookup P name = (Table.find? (Table.insertAll [] bindings) name).or (s.lookup P name) := by
  suffices h : ∀ (t : Table Slot) (s' : Scope),
      s'.lookup P name = (Table.find? t name).or (s.lookup P name) →
      (s'.enter bindings).lookup P name = (Table.find? (Table.insertAll t bindings) name).or (s.lookup P name) from
    h [] s rfl
  induction bindings with
  | nil => exact fun _ _ h => h
  | cons b bs ih =>
    intro t s' h
    refine ih (Table.insert t b.1 b.2) (.bind b.1 b.2 s') ?_
    rw [Scope.lookup, Table.find?_insert]
    split
    · rfl
    · exact h

/-! ## Maps -/

/-- What the identities, cells and scopes of a heap stand for, and the origins of everything that there is. -/
structure Map where
  ident : Nat → Origin → Prop
  cell : Nat → Slot → Prop
  scope : LazyModules.Scope → Scope → Prop
  used : Origin → Prop

/-- The second map has all that the first one has. -/
structure Map.Le (m m' : Map) : Prop where
  ident : ∀ {i o}, m.ident i o → m'.ident i o
  cell : ∀ {i x}, m.cell i x → m'.cell i x
  scope : ∀ {s t}, m.scope s t → m'.scope s t
  used : ∀ {o}, m.used o → m'.used o

/-- Nothing that comes from an evaluation. -/
def Map.drop (m : Map) (o : Origin) : Map where
  ident i x := m.ident i x ∧ ¬ x.From o
  cell i x := m.cell i x ∧ x.All fun y => ¬ y.From o
  scope s t := m.scope s t ∧ t.All fun y => ¬ y.From o
  used x := m.used x ∧ ¬ x.From o

/-- Stamps of numbers that correspond by a map. -/
def Map.links (m : Map) (p : Origin → Prop) : Eval.Links where
  ident i j := ∃ o, m.ident i o ∧ p o ∧ o.code = j
  cell _ _ := False
  closure _ _ := False

section Relations

variable (m : Map) (p : Origin → Prop)

/-- What a slot stands for. -/
inductive SlotRel : LazyModules.Slot → Slot → Prop where
  | constant (c : Constant) : SlotRel (.constant c) (.constant c)
  | closure {f : Closure} {o : Origin} {s : Scope} (hid : m.ident f.id o) (hscope : m.scope f.scope s) (ho : p o)
      (hs : s.All p) : SlotRel (.closure f) (.closure o f.params f.body s)
  | cell {i : Nat} {x : Slot} (h : m.cell i x) (hx : x.All p) : SlotRel (.cell i) x

inductive ValueRel : LazyModules.Value → Value → Prop where
  | nil : ValueRel .nil .nil
  | flag (b : Bool) : ValueRel (.flag b) (.flag b)
  | number {x y : Number} (h : (m.links p).NumberRel x y) : ValueRel (.number x) (.number y)
  | text (s : String) : ValueRel (.text s) (.text s)
  | list (i : Nat) {xs : List LazyModules.Slot} {ys : List Slot} (h : List.Forall₂ (SlotRel m p) xs ys) :
      ValueRel (.list i xs) (.list ys)
  | record (i : Nat) {xs : Table LazyModules.Slot} {ys : Table Slot}
      (h : List.Forall₂ (EntryRel (SlotRel m p)) xs ys) : ValueRel (.record i xs) (.record ys)
  | function {f : Closure} {o : Origin} {s : Scope} (hid : m.ident f.id o) (hscope : m.scope f.scope s) (ho : p o)
      (hs : s.All p) : ValueRel (.function f) (.function o f.params f.body s)

/-- What the job of a cell is there for. -/
inductive JobRel : Job → Slot → Prop where
  | expr {s : LazyModules.Scope} {t : Scope} (h : m.scope s t) (e : Expr) (o : Origin) :
      JobRel (.expr e s) (.thunk o e t)
  | load (importer name target : String) (o : Origin) : JobRel (.load importer name target) (.load o target)

end Relations

/-- A map and a property that keep everything that a map has with a property. -/
structure Carries (m : Map) (p : Origin → Prop) (m' : Map) (q : Origin → Prop) : Prop where
  ident : ∀ {i o}, m.ident i o → p o → m'.ident i o ∧ q o
  cell : ∀ {i x}, m.cell i x → x.All p → m'.cell i x ∧ x.All q
  scope : ∀ {s t}, m.scope s t → t.All p → m'.scope s t ∧ t.All q

section Carrying

variable {m m' : Map} {p q : Origin → Prop}

theorem Map.Le.carries (hm : m.Le m') (h : ∀ o, p o → q o) : Carries m p m' q where
  ident hid ho := ⟨hm.ident hid, h _ ho⟩
  cell hi hx := ⟨hm.cell hi, hx.imp h⟩
  scope hs ht := ⟨hm.scope hs, ht.imp h⟩

theorem Map.carries_drop {o : Origin} (h : ∀ x, p x → ¬ x.From o) (hpq : ∀ x, p x → q x) :
    Carries m p (m.drop o) q where
  ident hid ho := ⟨⟨hid, h _ ho⟩, hpq _ ho⟩
  cell hi hx := ⟨⟨hi, hx.imp h⟩, hx.imp hpq⟩
  scope hs ht := ⟨⟨hs, ht.imp h⟩, ht.imp hpq⟩

theorem SlotRel.carry (h : Carries m p m' q) {x : LazyModules.Slot} {y : Slot} (hxy : SlotRel m p x y) :
    SlotRel m' q x y := by
  cases hxy with
  | constant c => exact .constant c
  | closure hid hscope ho hs =>
    obtain ⟨hid, ho⟩ := h.ident hid ho
    obtain ⟨hscope, hs⟩ := h.scope hscope hs
    exact .closure hid hscope ho hs
  | cell hi hx =>
    obtain ⟨hi, hx⟩ := h.cell hi hx
    exact .cell hi hx

theorem ValueRel.carry (h : Carries m p m' q) {a : LazyModules.Value} {b : Value} (hab : ValueRel m p a b) :
    ValueRel m' q a b := by
  cases hab with
  | nil => exact .nil
  | flag b => exact .flag b
  | text s => exact .text s
  | number hn =>
    refine .number ?_
    cases hn with
    | int n => exact .int n
    | float x => exact .float x
    | nan hid =>
      obtain ⟨o, hid, ho, rfl⟩ := hid
      obtain ⟨hid, ho⟩ := h.ident hid ho
      exact .nan ⟨o, hid, ho, rfl⟩
  | list i hxs => exact .list i (hxs.imp fun _ _ => SlotRel.carry h)
  | record i hxs => exact .record i (hxs.imp fun _ _ hxy => hxy.imp fun _ _ => SlotRel.carry h)
  | function hid hscope ho hs =>
    obtain ⟨hid, ho⟩ := h.ident hid ho
    obtain ⟨hscope, hs⟩ := h.scope hscope hs
    exact .function hid hscope ho hs

theorem SlotRel.all {x : LazyModules.Slot} {y : Slot} (h : SlotRel m p x y) : y.All p := by
  cases h with
  | constant c => trivial
  | closure _ _ ho hs => exact ⟨ho, hs⟩
  | cell _ hx => exact hx

/-- Another property of what a slot stands for. -/
theorem SlotRel.of_all {x : LazyModules.Slot} {y : Slot} (h : SlotRel m p x y) (hy : y.All q) : SlotRel m q x y := by
  cases h with
  | constant c => exact .constant c
  | closure hid hscope _ _ => exact .closure hid hscope hy.1 hy.2
  | cell hi _ => exact .cell hi hy

theorem JobRel.carry (hscope : ∀ {s t}, m.scope s t → t.All p → m'.scope s t) {job : Job} {x : Slot}
    (h : JobRel m job x) (hx : x.All p) : JobRel m' job x := by
  cases h with
  | expr hs e o => exact .expr (hscope hs hx.2) e o
  | load importer name target o => exact .load importer name target o

/-- The origin of what a cell stands for is mentioned. -/
theorem JobRel.origin {job : Job} {x : Slot} (h : JobRel m job x) (hx : x.All p) : p x.origin := by
  cases h with
  | expr _ _ _ => exact hx.1
  | load _ _ _ _ => exact hx

end Carrying

end LazyModules.Meaning
