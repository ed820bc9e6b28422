import LazyModules.Proofs.Meaning.Tasks
import LazyModules.Proofs.Walk.Display

/-!
# Evaluation and what it means

Evaluation by need runs from a world to a later one, and its result means what the courses of the meaning come to.
A family has a course for each depth, and it is the larger depths that count. There are three ways to end (`Ends`):

* with a value, which is the one that all but the first courses of the family arrive at, and no course at another one;
* for a reason that lies outside of the program, such as a text that cannot be had or a depth that is used up;
* because there is no value. Then a course of the family has one only if a busy task has one at a depth that is not
  larger. A demand for a task that is busy already is the case in which this is needed.

**Results.** `Tracks.bind`, `Tracks.mapList` and the like: how computations are put together. `delay_tracks`,
`deepWith_tracks`, `compareWith_tracks`: what evaluation does apart from expressions.
-/
namespace LazyModules

theorem Outcome.error_ne_ok {ε α : Type} (e : ε) (a : α) : Outcome.error e ≠ .ok a := fun h => by cases h

theorem Outcome.exhausted_ne_ok {ε α : Type} (a : α) : (Outcome.exhausted : Outcome ε α) ≠ .ok a := fun h => by cases h

/-- The outcome has a reason outside of the program. -/
def Outcome.Lost {α : Type} : Outcome Trouble α → Prop
  | .ok _ => False
  | .error t => ∃ a, t = .accident a
  | .exhausted => True

namespace Meaning

open Engine

variable {c : Config} {α β γ δ : Type}

abbrev Family (β : Type) := Program → Nat → Course β

/-- How a computation ends that went from one world to another, and what a family of courses has to do with it. -/
inductive Ends (w : World c) (R : World c → α → β → Prop) (y : Family β) : Outcome Trouble α → World c → Prop where
  | ok {a : α} {b : β} {w' : World c} (h : R w' a b) (hsame : w'.session.failed = w.session.failed)
      (harrives : ∀ {P}, Compat c P w'.session → Arrives (y P) w.place (b, w'.place)) : Ends w R y (.ok a) w'
  | lost {o : Outcome Trouble α} {w' : World c} (ho : o.Lost) (hsame : w'.session.failed = w.session.failed) :
      Ends w R y o w'
  | doomed {o : Outcome Trouble α} {w' : World c} (ho : ∀ a, o ≠ .ok a)
      (h : ∀ {P}, Compat c P w'.session → ∀ {d r}, y P d w.place = some r →
        ∃ q, w'.Task q .busy ∧ ∃ d' ≤ d, Succeeds P d' q) : Ends w R y o w'

/-- A computation leads from a world to a later one, and ends as a family of courses has it. -/
def Tracks (w : World c) (R : World c → α → β → Prop) (x : Action α) (y : Family β) : Prop :=
  ∃ o, ∃ w' : World c, x w.heap = (o, w'.heap) ∧ w.Le w' ∧ Ends w R y o w'

namespace Tracks

variable {w : World c} {R S : World c → α → β → Prop} {T : World c → γ → δ → Prop} {x : Action α} {y y' : Family β}

/-- A step that always has a result. -/
theorem move {u : World c} {a : α} {b : β} (hu : w.Le u) (hx : x w.heap = (.ok a, u.heap))
    (hsame : u.session.failed = w.session.failed) (hy : ∀ P d, y P d w.place = some (b, u.place)) (h : R u a b) :
    Tracks w R x y := by
  refine ⟨_, u, hx, hu, .ok h hsame fun _ => ⟨⟨0, fun d _ => hy _ d⟩, fun {d r'} hr' => ?_⟩⟩
  exact Option.some.inj (hr'.symm.trans (hy _ d))

theorem pure {a : α} {b : β} (h : R w a b) : Tracks w R (Pure.pure a) fun _ _ => Pure.pure b :=
  move (.refl w) rfl rfl (fun _ _ => rfl) h

/-- A failure where there is no value at all. -/
theorem fail (t : Trouble) (hy : ∀ P d, y P d w.place = none) : Tracks w R (Computation.fail t) y := by
  refine ⟨_, w, rfl, .refl w, .doomed (fun _ => nofun) ?_⟩
  intro P _ d r hr
  rw [hy P d] at hr
  cases hr

/-- The depth is used up. -/
theorem exhaust : Tracks w R Computation.exhaust y := ⟨_, w, rfl, .refl w, .lost trivial rfl⟩

/-- A family counts for another one that has values only where it has them, and has the same ones later on. -/
theorem congr (h : Tracks w R x y')
    (hle : ∀ P, Compat c P w.session → ∀ d r, y P d w.place = some r → ∃ d' ≤ d, y' P d' w.place = some r)
    (hlate : ∀ P, Compat c P w.session → ∀ n, ∃ k, ∀ d ≥ k, ∃ d' ≥ n, y P d w.place = y' P d' w.place) :
    Tracks w R x y := by
  obtain ⟨o, w', hx, hw, hends⟩ := h
  refine ⟨o, w', hx, hw, ?_⟩
  cases hends with
  | @ok a b _ h hsame harrives =>
    refine .ok h hsame fun {P} hP => ⟨?_, fun {d r'} hr' => ?_⟩
    · obtain ⟨n, hn⟩ := (harrives hP).late
      obtain ⟨k, hk⟩ := hlate P (hw.compat hP) n
      refine ⟨k, fun d hd => ?_⟩
      obtain ⟨d', hd', heq⟩ := hk d hd
      exact heq.trans (hn d' hd')
    · obtain ⟨d', -, hd'⟩ := hle P (hw.compat hP) d r' hr'
      exact (harrives hP).only hd'
  | lost ho hsame => exact .lost ho hsame
  | doomed ho h =>
    refine .doomed ho ?_
    intro P hP d r hr
    obtain ⟨d', hd', hr'⟩ := hle P (hw.compat hP) d r hr
    obtain ⟨q, hq, d'', hd'', hsucceeds⟩ := h hP hr'
    exact ⟨q, hq, d'', Nat.le_trans hd'' hd', hsucceeds⟩

/-- Only the programs count that have the modules read so far. -/
theorem of_eq (h : Tracks w R x y') (hy : ∀ P, Compat c P w.session → ∀ d, y P d w.place = y' P d w.place) :
    Tracks w R x y :=
  h.congr (fun P hP d _ hr => ⟨d, Nat.le_refl d, (hy P hP d).symm.trans hr⟩)
    fun P hP n => ⟨n, fun d hd => ⟨d, hd, hy P hP d⟩⟩

/-- A family that starts one step later. -/
theorem later (h : Tracks w R x y') (hzero : ∀ P, y P 0 w.place = none)
    (hsucc : ∀ P d, y P (d + 1) w.place = y' P d w.place) : Tracks w R x y := by
  refine h.congr (fun P _ d r hr => ?_) fun P _ n => ⟨n + 1, fun d hd => ?_⟩
  · cases d with
    | zero => exact nomatch (hzero P).symm.trans hr
    | succ d => exact ⟨d, Nat.le_succ d, (hsucc P d).symm.trans hr⟩
  · obtain ⟨d, rfl⟩ := Nat.exists_eq_add_of_le' (Nat.le_trans (Nat.le_add_left 1 n) hd)
    exact ⟨d, by omega, hsucc P d⟩

theorem bind {f : α → Action γ} {g : Program → Nat → β → Course δ} (h : Tracks w R x y)
    (hf : ∀ w', w.Le w' → ∀ a b, R w' a b → Tracks w' T (f a) fun P d => g P d b) :
    Tracks w T (x >>= f) fun P d => y P d >>= g P d := by
  obtain ⟨o₁, w₁, hx, hle₁, hends₁⟩ := h
  have hbind : (x >>= f) w.heap = x.bind f w.heap := rfl
  simp only [Computation.bind, hx] at hbind
  cases hends₁ with
  | lost ho hsame =>
    cases o₁ with
    | ok a => exact ho.elim
    | error t => exact ⟨_, w₁, hbind, hle₁, .lost ho hsame⟩
    | exhausted => exact ⟨_, w₁, hbind, hle₁, .lost ho hsame⟩
  | doomed ho h =>
    have hdoomed {P : Program} (hP : Compat c P w₁.session) {d : Nat} {r : δ × Place}
        (hr : (y P d >>= g P d) w.place = some r) : ∃ q, w₁.Task q .busy ∧ ∃ d' ≤ d, Succeeds P d' q := by
      obtain ⟨r', hr', -⟩ := Option.bind_eq_some_iff.mp hr
      exact h hP hr'
    cases o₁ with
    | ok a => exact absurd rfl (ho a)
    | error t => exact ⟨_, w₁, hbind, hle₁, .doomed (Outcome.error_ne_ok t) hdoomed⟩
    | exhausted => exact ⟨_, w₁, hbind, hle₁, .doomed Outcome.exhausted_ne_ok hdoomed⟩
  | @ok a b _ hR hsame₁ harrives₁ =>
    obtain ⟨o₂, w₂, hx₂, hle₂, hends₂⟩ := hf w₁ hle₁ a b hR
    refine ⟨o₂, w₂, hbind.trans hx₂, hle₁.trans hle₂, ?_⟩
    -- whatever the second part arrives at, it goes on from where the first part arrived
    have hgo {P : Program} (hP : Compat c P w₂.session) {d : Nat} {r : δ × Place}
        (hr : (y P d >>= g P d) w.place = some r) : g P d b w₁.place = some r := by
      obtain ⟨r', hr', hr⟩ := Option.bind_eq_some_iff.mp hr
      obtain rfl := (harrives₁ (hle₂.compat hP)).only hr'
      exact hr
    cases hends₂ with
    | @ok a' b' _ hT hsame₂ harrives₂ =>
      refine .ok hT (hsame₂.trans hsame₁) fun {P} hP => ⟨?_, fun hr' => (harrives₂ hP).only (hgo hP hr')⟩
      obtain ⟨n₁, hn₁⟩ := (harrives₁ (hle₂.compat hP)).late
      obtain ⟨n₂, hn₂⟩ := (harrives₂ hP).late
      refine ⟨max n₁ n₂, fun d hd => ?_⟩
      exact Option.bind_eq_some_iff.mpr ⟨_, hn₁ d (by omega), hn₂ d (by omega)⟩
    | lost ho hsame₂ => exact .lost ho (hsame₂.trans hsame₁)
    | doomed ho h => exact .doomed ho fun hP _ _ hr => h hP (hgo hP hr)

/-- A computation that goes on from a later world, in a way that the meaning knows nothing of. -/
theorem after {u : World c} {x' : Action α} (hu : w.Le u) (hx : x w.heap = x' u.heap)
    (hsame : u.session.failed = w.session.failed) (hplace : u.place = w.place) (h : Tracks u R x' y) :
    Tracks w R x y := by
  obtain ⟨o, w', hx', hle, hends⟩ := h
  refine ⟨o, w', hx.trans hx', hu.trans hle, ?_⟩
  cases hends with
  | ok h hsame' harrives => exact .ok h (hsame'.trans hsame) (hplace ▸ harrives)
  | lost ho hsame' => exact .lost ho (hsame'.trans hsame)
  | doomed ho h => exact .doomed ho (hplace ▸ h)

/-- A step that the meaning knows nothing of. -/
theorem prepend {u : World c} {a : α} {f : α → Action γ} {z : Family δ} (hu : w.Le u)
    (hx : x w.heap = (.ok a, u.heap)) (hsame : u.session.failed = w.session.failed) (hplace : u.place = w.place)
    (h : Tracks u T (f a) z) : Tracks w T (x >>= f) z := by
  refine after hu ?_ hsame hplace h
  change x.bind f w.heap = _
  simp only [Computation.bind, hx]

end Tracks

/-- What stays true in all later worlds. -/
structure Lasting (R : World c → α → β → Prop) : Prop where
  mono : ∀ {w w'}, w.Le w' → ∀ {a b}, R w a b → R w' a b

theorem Lasting.forall₂ {R : World c → α → β → Prop} (hR : Lasting R) : Lasting fun w => List.Forall₂ (R w) :=
  ⟨fun hle _ _ h => h.imp fun _ _ => hR.mono hle⟩

theorem Lasting.entry {R : World c → α → β → Prop} (hR : Lasting R) : Lasting fun w => EntryRel (R w) :=
  ⟨fun hle _ _ h => h.imp fun _ _ => hR.mono hle⟩

theorem lasting_slotRel : Lasting (World.SlotRel (c := c)) := ⟨fun hle _ _ => hle.slotRel⟩

theorem Tracks.mapList {R : World c → α → β → Prop} {T : World c → γ → δ → Prop} (hR : Lasting R) (hT : Lasting T)
    {f : α → Action γ} {g : Program → Nat → β → Course δ}
    (hf : ∀ w a b, R w a b → Tracks w T (f a) fun P d => g P d b) {w : World c} {xs : List α} {ys : List β}
    (h : List.Forall₂ (R w) xs ys) :
    Tracks w (fun w' => List.Forall₂ (T w')) (Eval.mapList f xs) fun P d => ys.mapM (g P d) := by
  induction xs generalizing w ys with
  | nil =>
    cases h
    exact .pure .nil
  | cons a xs ih =>
    cases h with
    | cons hab hrest =>
      simp only [List.mapM_cons]
      refine (hf w a _ hab).bind fun w₁ hle₁ a' b' hab' => ?_
      refine (ih (hR.forall₂.mono hle₁ hrest)).bind fun w₂ hle₂ as bs hrest' => ?_
      exact .pure (.cons (hT.mono hle₂ hab') hrest')

/-! ## Making things -/

section Making

variable {w : World c}

theorem fresh_place : fresh w.place = some (w.next, ⟨w.current, w.counted w.current⟩) := by
  simp only [fresh, World.place, World.counted, Function.update_self, World.next]

theorem delay_place (t : Scope) (e : Expr) :
    delay t e w.place = some (suspend w.next t e, ⟨w.current, w.counted w.current⟩) := by
  simp only [delay, bind, StateT.bind, fresh_place]
  rfl

theorem freshId_tracks : Tracks w (fun w' i o => w'.map.ident i o ∧ w'.Near o) Eval.freshId fun _ _ => fresh := by
  have hle := World.le_extend w.extension_name fun _ => w.counted_of_ne
  exact .move hle rfl rfl (fun _ _ => fresh_place) ⟨.inr ⟨rfl, rfl⟩, hle.near_iff.mpr w.near_next⟩

/-- An identity that the meaning knows nothing of. -/
theorem Tracks.useId {R : World c → α → β → Prop} {f : Nat → Action α} {y : Family β}
    (h : ∀ w', w.Le w' → ∀ i, Tracks w' R (f i) y) : Tracks w R (Eval.freshId >>= f) y := by
  have hle := World.le_extend w.extension_useId fun _ _ => rfl
  exact .prepend hle rfl rfl rfl (h _ hle _)

theorem delay_tracks {s : LazyModules.Scope} {t : Scope} (hs : w.ScopeRel s t) (e : Expr) :
    Tracks w World.SlotRel (Eval.delay s e) fun _ _ => delay t e := by
  -- a constant is at hand, a function has an identity, and everything else has a cell
  have hskip := World.le_extend w.extension_skip fun _ => w.counted_of_ne
  have hname := World.le_extend w.extension_name fun _ => w.counted_of_ne
  have halloc := World.le_extend (w.extension_alloc hs e) fun _ => w.counted_of_ne
  have hcell : (w.extend (w.extension_alloc hs e)).SlotRel (.cell w.heap.cells.size) (.thunk w.next e t) :=
    .cell (.inr ⟨rfl, rfl⟩) ⟨halloc.near_iff.mpr w.near_next, (halloc.scopeRel hs).2⟩
  cases e with
  | literal k n => exact .move hskip rfl rfl (fun _ _ => delay_place t _) (.constant k)
  | lambda params body n =>
    refine .move hname rfl rfl (fun _ _ => delay_place t _) ?_
    exact .closure (.inr ⟨rfl, rfl⟩) hs.1 (hname.near_iff.mpr w.near_next) (hname.scopeRel hs).2
  | _ => exact .move halloc rfl rfl (fun _ _ => delay_place t _) hcell

theorem delayFields_tracks {s : LazyModules.Scope} {t : Scope} (hs : w.ScopeRel s t) (fs : List (String × Expr))
    {xs : Table LazyModules.Slot} {ys : Table Slot} (hxs : List.Forall₂ (EntryRel w.SlotRel) xs ys) :
    Tracks w (fun w' => List.Forall₂ (EntryRel w'.SlotRel)) (Eval.delayFields (Eval.delay s) xs fs) fun _ _ =>
      delayFields t ys fs := by
  induction fs generalizing w xs ys with
  | nil => exact .pure hxs
  | cons f fs ih =>
    refine (delay_tracks hs f.2).bind fun w₁ hle₁ x y hxy => ?_
    exact ih (hle₁.scopeRel hs) (Table.insert_rel (lasting_slotRel.entry.forall₂.mono hle₁ hxs) f.1 hxy)

end Making

/-! ## Evaluation all the way down -/

/-- The numbers of the identities that stand for something. -/
def World.names (w : World c) (i j : Nat) : Prop := ∃ o, w.map.ident i o ∧ o.code = j

theorem World.oneToOne_names (w : World c) : OneToOne w.names where
  iff := by
    rintro i i' j j' ⟨o, ho, rfl⟩ ⟨o', ho', rfl⟩
    rw [w.valid.ident_unique ho ho']
    exact Origin.code_injective.eq_iff.symm

/-- Trees that are the same but for what identities are called, now and later. -/
def World.TreeRel (w : World c) (x y : Tree) : Prop :=
  ∀ u, w.Le u → x.relabel (renamed u.names) = y.relabel fun j => 2 * j

theorem lasting_treeRel : Lasting (World.TreeRel (c := c)) := ⟨fun hle _ _ h u hu => h u (hle.trans hu)⟩

section Deep

variable {w : World c} {force : LazyModules.Slot → Action LazyModules.Value}
  (hforce : ∀ {w : World c} {x y}, w.SlotRel x y →
    Tracks w World.ValueRel (force x) fun P d => answer P d (.slot y))

theorem treeRel_number {x y : Number} (h : (w.map.links w.Near).NumberRel x y) :
    w.TreeRel (.number x) (.number y) := by
  intro u hu
  cases h with
  | int n => rfl
  | float x => rfl
  | nan hid =>
    obtain ⟨o, ho, -, rfl⟩ := hid
    simp only [Tree.relabel, Number.relabel]
    rw [renamed_eq u.oneToOne_names ⟨o, hu.map.ident ho, rfl⟩]

/-- A family of evaluations all the way down is what it is once it has any depth at all. -/
theorem Tracks.deepen {R : World c → α → Tree → Prop} {x : Action α} {y : Family Tree} (h : Tracks w R x y)
    {g : Nat → Nat} (hg : ∀ k, ∃ n, ∀ d ≥ n, k ≤ g d) {b : Value}
    (hy : ∀ P d n, g d = n + 1 → deep (fun x => answer P d (.slot x)) (n + 1) b = y P d) :
    Tracks w R x fun P d => deep (fun x => answer P d (.slot x)) (g d) b := by
  refine h.congr (fun P _ d r hr => ⟨d, Nat.le_refl d, ?_⟩) fun P _ n => ?_
  · rcases hd : g d with _ | k
    · rw [hd] at hr
      cases hr
    · rw [hd, hy P d k hd] at hr
      exact hr
  · obtain ⟨k, hk⟩ := hg 1
    refine ⟨max k n, fun d hd => ⟨d, by omega, ?_⟩⟩
    obtain ⟨m, hm⟩ := Nat.exists_eq_add_of_le' (hk d (by omega))
    rw [hm, hy P d m hm]

include hforce

theorem deepWith_tracks (n : Nat) {g : Nat → Nat} (hg : ∀ k, ∃ n, ∀ d ≥ n, k ≤ g d) {a : LazyModules.Value} {b : Value}
    (hab : w.ValueRel a b) :
    Tracks w World.TreeRel (Eval.deepWith force n a) fun P d => deep (fun x => answer P d (.slot x)) (g d) b := by
  induction n generalizing w g a b with
  | zero => exact .exhaust
  | succ n ih =>
    have hg' (k : Nat) : ∃ n, ∀ d ≥ n, k ≤ g d - 1 := by
      obtain ⟨n, hn⟩ := hg (k + 1)
      exact ⟨n, fun d hd => Nat.le_sub_one_of_lt (hn d hd)⟩
    have hslot (w : World c) (x : LazyModules.Slot) (y : Slot) (hxy : w.SlotRel x y) :
        Tracks w World.TreeRel (force x >>= Eval.deepWith force n) fun P d =>
          answer P d (.slot y) >>= deep (fun x => answer P d (.slot x)) (g d - 1) :=
      (hforce hxy).bind fun _ _ _ _ hab => ih hg' hab
    have hleaf {x y : Tree} (h : w.TreeRel x y)
        (hy : ∀ P d n, deep (fun x => answer P d (.slot x)) (n + 1) b = Pure.pure y) :
        Tracks w World.TreeRel (Pure.pure x) fun P d => deep (fun x => answer P d (.slot x)) (g d) b :=
      (Tracks.pure h).deepen hg fun P d n _ => hy P d n
    cases hab with
    | nil => exact hleaf (fun _ _ => rfl) fun _ _ _ => rfl
    | flag v => exact hleaf (fun _ _ => rfl) fun _ _ _ => rfl
    | text s => exact hleaf (fun _ _ => rfl) fun _ _ _ => rfl
    | number h => exact hleaf (treeRel_number h) fun _ _ _ => rfl
    | function hid _ _ _ =>
      refine hleaf (fun u hu => ?_) fun _ _ _ => rfl
      simp only [Tree.relabel]
      rw [renamed_eq u.oneToOne_names ⟨_, hu.map.ident hid, rfl⟩]
    | list i hxs =>
      refine Tracks.deepen (Tracks.bind (Tracks.mapList lasting_slotRel lasting_treeRel hslot hxs)
        fun w' _ ts us hts => .pure (b := Tree.list us) fun u hu => ?_) hg fun P d k hk => ?_
      · simp only [Tree.relabel]
        rw [Tree.relabelItems_congr (hts.imp fun _ _ h => h u hu)]
      · rw [hk]
        rfl
    | record i hxs =>
      have hfield (w : World c) (x : String × LazyModules.Slot) (y : String × Slot) (hxy : EntryRel w.SlotRel x y) :
          Tracks w (fun w' => EntryRel w'.TreeRel)
            (do return (x.1, ← Eval.deepWith force n (← force x.2)))
            fun P d =>
              (do return (y.1, ← deep (fun x => answer P d (.slot x)) (g d - 1) (← answer P d (.slot y.2)))) := by
        refine (hforce hxy.2).bind fun _ _ _ _ hab => (ih hg' hab).bind fun _ _ _ _ ht => .pure ⟨hxy.1, ht⟩
      refine Tracks.deepen (Tracks.bind (Tracks.mapList lasting_slotRel.entry lasting_treeRel.entry hfield hxs)
        fun w' _ ts us hts => .pure (b := Tree.record us) fun u hu => ?_) hg fun P d k hk => ?_
      · simp only [Tree.relabel]
        rw [Tree.relabelFields_congr (hts.imp fun _ _ h => h.imp fun _ _ h => h u hu)]
      · rw [hk]
        rfl

/-- Comparisons have the result that they should have. -/
theorem compareWith_tracks (n : Nat) {a a' : LazyModules.Value} {b b' : Value} (hab : w.ValueRel a b)
    (hab' : w.ValueRel a' b') :
    Tracks w (fun _ => Eq) (Eval.compareWith force n a a') fun P d =>
      compare (fun x => answer P d (.slot x)) d b b' := by
  have hg (k : Nat) : ∃ n, ∀ d ≥ n, k ≤ id d := ⟨k, fun _ => id⟩
  refine (deepWith_tracks hforce n hg hab).bind fun w₁ hle₁ x x' hx => ?_
  refine (deepWith_tracks hforce n hg (hle₁.valueRel hab')).bind fun w₂ hle₂ y y' hy => ?_
  exact .pure (Tree.equal_of_renamed w₂.oneToOne_names (hx w₂ hle₂) (hy w₂ (.refl w₂)))

end Deep

end Meaning

end LazyModules
