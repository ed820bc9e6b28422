import LazyModules.Proofs.Walk.Follows
import LazyModules.Proofs.Walk.Heap
import LazyModules.Proofs.Walk.Links

/-!
# Corresponding walkers

A correspondence relates what two evaluations have in hand: identities, cells and functions (`Links`), and
the expressions that may be evaluated, in which scopes. The two expressions have the same form (`Like`), and they
are one and the same if the right side has to fail as the left one does, since errors tell offsets. All this has
to be kept by everything that `step` does by itself, which is to make identities and frames and to look up names.
Then it is kept by `step` altogether, as long as the two walkers that do the rest keep it (`Respects`):

* `step_follows`: corresponding expressions come to corresponding values.

One proof by cases on the expression serves every fact about evaluation that is of this kind.
-/
namespace LazyModules.Eval

/-- The expressions right inside an expression that are evaluated in its own scope. -/
def parts : Expr → List Expr
  | .literal _ _ | .lookup _ _ | .lambda _ _ _ => []
  | .binary l _ r _ | .shortcut l _ r _ => [l, r]
  | .unary _ a _ => [a]
  | .call f as _ => f :: as
  | .field l _ _ => [l]
  | .subscript l i _ => [l, i]
  | .cond t y n _ => [t, y, n]
  | .list es _ => es
  | .record fs _ => fs.map Prod.snd

/-- Expressions of the same form, with what is right inside them related by `R`. Offsets do not matter. -/
inductive Like (R : Expr → Expr → Prop) : Expr → Expr → Prop where
  | literal (c : Constant) (n n' : Nat) : Like R (.literal c n) (.literal c n')
  | lookup (name : String) (n n' : Nat) : Like R (.lookup name n) (.lookup name n')
  | binary {l l' r r' : Expr} (op : BinaryOp) (n n' : Nat) (hl : R l l') (hr : R r r') :
      Like R (.binary l op r n) (.binary l' op r' n')
  | shortcut {l l' r r' : Expr} (op : Connective) (n n' : Nat) (hl : R l l') (hr : R r r') :
      Like R (.shortcut l op r n) (.shortcut l' op r' n')
  | unary {a a' : Expr} (op : UnaryOp) (n n' : Nat) (ha : R a a') : Like R (.unary op a n) (.unary op a' n')
  | call {f f' : Expr} {as as' : List Expr} (n n' : Nat) (hf : R f f') (has : List.Forall₂ R as as') :
      Like R (.call f as n) (.call f' as' n')
  | field {l l' : Expr} (name : String) (n n' : Nat) (hl : R l l') : Like R (.field l name n) (.field l' name n')
  | subscript {l l' i i' : Expr} (n n' : Nat) (hl : R l l') (hi : R i i') :
      Like R (.subscript l i n) (.subscript l' i' n')
  | cond {t t' y y' e e' : Expr} (n n' : Nat) (ht : R t t') (hy : R y y') (he : R e e') :
      Like R (.cond t y e n) (.cond t' y' e' n')
  | lambda (params : List String) (body body' : Expr) (n n' : Nat) :
      Like R (.lambda params body n) (.lambda params body' n')
  | list {es es' : List Expr} (n n' : Nat) (hes : List.Forall₂ R es es') : Like R (.list es n) (.list es' n')
  | record {fs fs' : List (String × Expr)} (n n' : Nat) (hfs : List.Forall₂ (EntryRel R) fs fs') :
      Like R (.record fs n) (.record fs' n')

/-- An expression is like itself if its parts are related to themselves. -/
theorem Like.self {R : Expr → Expr → Prop} {e : Expr} (h : ∀ p ∈ parts e, R p p) : Like R e e := by
  cases e with
  | literal c n => exact .literal c n n
  | lookup name n => exact .lookup name n n
  | lambda params body n => exact .lambda params body body n n
  | binary l op r n => exact .binary op n n (h l (by simp [parts])) (h r (by simp [parts]))
  | shortcut l op r n => exact .shortcut op n n (h l (by simp [parts])) (h r (by simp [parts]))
  | unary op a n => exact .unary op n n (h a (by simp [parts]))
  | field l name n => exact .field name n n (h l (by simp [parts]))
  | subscript l i n => exact .subscript n n (h l (by simp [parts])) (h i (by simp [parts]))
  | cond t y e n =>
    exact .cond n n (h t (by simp [parts])) (h y (by simp [parts])) (h e (by simp [parts]))
  | call f as n =>
    exact .call n n (h f (by simp [parts])) (List.forall₂_same.mpr fun a ha => h a (by simp [parts, ha]))
  | list es n => exact .list n n (List.forall₂_same.mpr h)
  | record fs n =>
    exact .record n n (List.forall₂_same.mpr fun p hp => ⟨rfl, h p.2 (List.mem_map_of_mem hp)⟩)

theorem Like.imp {R R' : Expr → Expr → Prop} (hR : ∀ p p', R p p' → R' p p') {e e' : Expr} (h : Like R e e') :
    Like R' e e' := by
  cases h with
  | literal c n n' => exact .literal c n n'
  | lookup name n n' => exact .lookup name n n'
  | binary op n n' hl hr => exact .binary op n n' (hR _ _ hl) (hR _ _ hr)
  | shortcut op n n' hl hr => exact .shortcut op n n' (hR _ _ hl) (hR _ _ hr)
  | unary op n n' ha => exact .unary op n n' (hR _ _ ha)
  | call n n' hf has => exact .call n n' (hR _ _ hf) (has.imp hR)
  | field name n n' hl => exact .field name n n' (hR _ _ hl)
  | subscript n n' hl hi => exact .subscript n n' (hR _ _ hl) (hR _ _ hi)
  | cond n n' ht hy he => exact .cond n n' (hR _ _ ht) (hR _ _ hy) (hR _ _ he)
  | lambda params body body' n n' => exact .lambda params body body' n n'
  | list n n' hes => exact .list n n' (hes.imp hR)
  | record n n' hfs => exact .record n n' (hfs.imp fun _ _ h => h.imp hR)

/-- An error that says that a value depends on itself. -/
def IsCircular : Trouble → Prop
  | .semantic e => ∃ name, e.cause = .circular name
  | _ => False

theorem not_isCircular_complaint (address : String) (c : Complaint) :
    ¬ IsCircular (.at address (.complaint c)) :=
  fun ⟨_, h⟩ => nomatch h

theorem not_isCircular_undefinedName (address name : String) (available : List String) :
    ¬ IsCircular (.at address (.undefinedName name available)) :=
  fun ⟨_, h⟩ => nomatch h

/-- What two evaluations have in common. -/
structure Relations (σ τ : Type) extends Worlds (Heap σ) (Heap τ) Trouble where
  links : World → Links
  /-- these expressions may be evaluated, each in its scope -/
  visit : World → Expr → Expr → Scope → Scope → Prop
  links_mono : ∀ {u w}, le u w → (links u).Le (links w)
  visit_mono : ∀ {u w e e' s t}, le u w → visit u e e' s t → visit w e e' s t
  /-- only what is circular can be ruled out -/
  admits_of_not : ∀ {x}, ¬ IsCircular x → admits x

namespace Relations

variable {σ τ : Type} (K : Relations σ τ)

abbrev ident (w : K.World) : Nat → Nat → Prop := (K.links w).ident

abbrev closure (w : K.World) : Closure → Closure → Prop := (K.links w).closure

abbrev SlotRel (w : K.World) : Slot → Slot → Prop := (K.links w).SlotRel

abbrev NumberRel (w : K.World) : Number → Number → Prop := (K.links w).NumberRel

abbrev FieldRel (w : K.World) : String × Slot → String × Slot → Prop := (K.links w).FieldRel

abbrev ValueRel (w : K.World) : Value → Value → Prop := (K.links w).ValueRel

/-- Scopes that have corresponding slots for a name find corresponding slots. They know the same names if errors
are to be followed, since these tell what is known. -/
theorem find_follows {w : K.World} {s t : Scope} (h : s.address = t.address) {name : String}
    (hlookup : Option.Rel (Option.Rel (K.SlotRel w)) (s.lookup? (K.left w).rest.frames name)
      (t.lookup? (K.right w).rest.frames name)) {n n' : Nat}
    (hheeds : K.heeds → s.names (K.left w).rest.frames = t.names (K.right w).rest.frames ∧ n = n') :
    K.Follows w K.SlotRel (find s name n) fun _ => find t name n' := by
  have hframes : K.Follows w (fun w' fs gs => w' = w ∧ fs = (K.left w).rest.frames ∧
      gs = (K.right w).rest.frames) frames fun _ => frames := by
    rintro o m ⟨⟩ -
    exact ⟨w, K.le_refl w, rfl, _, .ok ⟨rfl, rfl, rfl⟩, 0, fun _ _ => rfl⟩
  refine Worlds.Follows.bind hframes fun w' _ fs gs hfs => ?_
  obtain ⟨rfl, rfl, rfl⟩ := hfs
  generalize s.lookup? (K.left w').rest.frames name = x, t.lookup? (K.right w').rest.frames name = y at hlookup
  by_cases hfails : K.heeds
  · obtain ⟨hnames, rfl⟩ := hheeds hfails
    rw [h, hnames]
    cases hlookup with
    | none => exact Worlds.Follows.fail (K.admits_of_not (not_isCircular_undefinedName _ _ _))
    | some hxy =>
      cases hxy with
      | none =>
        simp only [object, h]
        exact Worlds.Follows.fail (K.admits_of_not (not_isCircular_complaint _ _))
      | some hxy => exact Worlds.Follows.pure hxy
  · cases hlookup with
    | none => exact Worlds.Follows.of_fails hfails fun m => ⟨_, m, rfl⟩
    | some hxy =>
      cases hxy with
      | none => exact Worlds.Follows.of_fails hfails fun m => ⟨_, m, rfl⟩
      | some hxy => exact Worlds.Follows.pure hxy

end Relations

/-- Relations that evaluation keeps by itself. -/
structure Correspondence (σ τ : Type) extends Relations σ τ where
  address : ∀ {w e e' s t}, visit w e e' s t → s.address = t.address
  /-- errors tell offsets -/
  same : ∀ {w e e' s t}, visit w e e' s t → heeds → e = e'
  like : ∀ {w e e' s t}, visit w e e' s t → Like (fun p p' => visit w p p' s t) e e'
  visit_lambda : ∀ {w params body body' n n' s t i j},
    visit w (.lambda params body n) (.lambda params body' n') s t → toRelations.ident w i j →
    toRelations.closure w ⟨i, params, body, s⟩ ⟨j, params, body', t⟩
  closure_id : ∀ {w f g}, toRelations.closure w f g → toRelations.ident w f.id g.id
  params : ∀ {w f g}, toRelations.closure w f g → f.params = g.params
  freshId : ∀ w, toWorlds.Follows w toRelations.ident freshId fun _ => freshId
  find : ∀ {w name n n' s t}, visit w (.lookup name n) (.lookup name n') s t →
    toWorlds.Follows w toRelations.SlotRel (find s name n) fun _ => find t name n'
  enter : ∀ {w f g xs ys}, toRelations.closure w f g → List.Forall₂ (toRelations.SlotRel w) xs ys →
    xs.length = f.params.length →
    toWorlds.Follows w (fun w' s t => visit w' f.body g.body s t) (enter f.scope (f.params.zip xs)) fun _ =>
      enter g.scope (g.params.zip ys)

namespace Correspondence

variable {σ τ : Type} (K : Correspondence σ τ)

/-- A walker and a family of walkers that keep a correspondence. -/
structure Respects (W : Walker σ) (W' : Nat → Walker τ) : Prop where
  strict : ∀ {w e e' s t}, K.visit w e e' s t →
    K.Follows w K.ValueRel (W.strict e s) fun d => (W' d).strict e' t
  delay : ∀ {w e e' s t}, K.visit w e e' s t → K.Follows w K.SlotRel (W.delay s e) fun d => (W' d).delay t e'
  force : ∀ {w x y}, K.SlotRel w x y → K.Follows w K.ValueRel (W.force x) fun d => (W' d).force y
  look : ∀ {w name n n' s t x y}, K.visit w (.lookup name n) (.lookup name n') s t → K.SlotRel w x y →
    K.Follows w K.ValueRel (W.look s name x) fun d => (W' d).look t name y
  compare : ∀ {w a a' b b'}, K.ValueRel w a a' → K.ValueRel w b b' →
    K.Follows w (fun _ => Eq) (W.compare a b) fun d => (W' d).compare a' b'

variable {K} {w : K.World} {W : Walker σ} {W' : Nat → Walker τ}

open Worlds

/-! ## Lists -/

/-- One computation for each element, side by side. -/
theorem mapList_follows {α β γ δ : Type} {R : K.World → α → β → Prop} {V : K.World → γ → δ → Prop}
    {f : α → Eval σ γ} {f' : Nat → β → Eval τ δ}
    (hV : ∀ {u w}, K.le u w → ∀ c d, V u c d → V w c d)
    (hf : ∀ w', K.le w w' → ∀ x y, R w x y → K.Follows w' V (f x) fun d => f' d y)
    {xs : List α} {ys : List β} (h : List.Forall₂ (R w) xs ys) :
    ∀ u, K.le w u → K.Follows u (fun u cs ds => List.Forall₂ (V u) cs ds ∧ cs.length = xs.length)
      (mapList f xs) fun d => mapList (f' d) ys := by
  induction h with
  | nil => exact fun u _ => Follows.pure ⟨.nil, rfl⟩
  | @cons x y xs ys hxy _ ih =>
    intro u hu
    refine Follows.bind (hf u hu x y hxy) fun u₁ hu₁ c d hcd => ?_
    refine Follows.bind (ih u₁ (K.le_trans hu hu₁)) fun u₂ hu₂ cs ds hcds => ?_
    exact Follows.pure ⟨.cons (hV hu₂ c d hcd) hcds.1, congrArg (· + 1) hcds.2⟩

theorem delayAll_follows (hW : K.Respects W W') {s t : Scope} {es es' : List Expr}
    (h : List.Forall₂ (fun e e' => K.visit w e e' s t) es es') :
    K.Follows w (fun u xs ys => List.Forall₂ (K.SlotRel u) xs ys ∧ xs.length = es.length)
      (mapList (W.delay s) es) fun d => mapList ((W' d).delay t) es' :=
  mapList_follows (R := fun w e e' => K.visit w e e' s t) (fun hle _ _ h => h.mono (K.links_mono hle))
    (fun _ hw _ _ he => hW.delay (K.visit_mono hw he)) h w (K.le_refl w)

theorem delayFields_follows (hW : K.Respects W W') {s t : Scope} {fs fs' : List (String × Expr)}
    (h : List.Forall₂ (EntryRel fun e e' => K.visit w e e' s t) fs fs') {done done' : Table Slot}
    (hdone : List.Forall₂ (K.FieldRel w) done done') :
    K.Follows w (fun u => List.Forall₂ (K.FieldRel u)) (delayFields (W.delay s) done fs) fun d =>
      delayFields ((W' d).delay t) done' fs' := by
  induction fs generalizing w fs' done done' with
  | nil =>
    cases h
    exact Follows.pure hdone
  | cons p fs ih =>
    obtain ⟨n, e⟩ := p
    cases h with
    | @cons _ q _ fs' hpq hfs =>
      obtain ⟨n', e'⟩ := q
      obtain ⟨rfl, he⟩ := hpq
      refine Follows.bind (hW.delay he) fun u hu x y hxy => ?_
      refine ih (hfs.imp fun _ _ h => h.imp fun _ _ h => K.visit_mono hu h) ?_
      have hdone' := hdone.imp fun _ _ h => h.imp fun _ _ h => h.mono (K.links_mono hu)
      exact Table.insert_rel hdone' n hxy

/-! ## Operators -/

/-- An objection in scopes of the same module; it is the same one if it is to be followed. -/
theorem object_follows {α β : Type} {V : K.World → α → β → Prop} {s t : Scope} (h : s.address = t.address)
    {o o' : Objection} {near near' : Nat} (hsame : K.heeds → o = o' ∧ near = near') :
    K.Follows w V (object s o near) fun _ => object t o' near' := by
  by_cases hheeds : K.heeds
  · obtain ⟨rfl, rfl⟩ := hsame hheeds
    simp only [object, h]
    exact Follows.fail (K.admits_of_not (not_isCircular_complaint _ _))
  · exact Follows.of_fails hheeds fun m => ⟨_, m, rfl⟩

theorem calculate_follows {s t : Scope} (h : s.address = t.address) (op : BinaryOp) {n n' : Nat}
    (hn : K.heeds → n = n') (a : Number.Arithmetic) {x x' y y' : Number} (hx : K.NumberRel w x x')
    (hy : K.NumberRel w y y') :
    K.Follows w K.ValueRel (calculate s op n a x y) fun _ => calculate t op n' a x' y' := by
  unfold calculate
  refine Follows.bind (K.freshId w) fun u hu i j hid => ?_
  have hr := Links.arithmetic_rel a hid (hx.mono (K.links_mono hu)) (hy.mono (K.links_mono hu))
  generalize Number.arithmetic a i x y = r, Number.arithmetic a j x' y' = r' at hr
  cases hr with
  | ok hz => exact Follows.pure (.number hz)
  | error f =>
    cases f with
    | divisionByZero => exact object_follows h fun hheeds => ⟨rfl, hn hheeds⟩
    | tooLargeToConvert => exact Follows.fail (K.admits_of_not id)
    | quotientTooLarge => exact Follows.fail (K.admits_of_not id)

theorem joinLists_follows {i i' j j' : Nat} {xs xs' ys ys' : List Slot} (hi : K.ident w i i')
    (hj : K.ident w j j') (hxs : List.Forall₂ (K.SlotRel w) xs xs') (hys : List.Forall₂ (K.SlotRel w) ys ys') :
    K.Follows w K.ValueRel (joinLists i xs j ys) fun _ => joinLists i' xs' j' ys' := by
  cases hxs with
  | nil => exact Follows.pure (.list hj hys)
  | cons hx hxs =>
    cases hys with
    | nil => exact Follows.pure (.list hi (.cons hx hxs))
    | cons hy hys =>
      refine Follows.bind (K.freshId w) fun u hu i j hid => Follows.pure (.list hid ?_)
      refine List.rel_append ?_ ?_
      · exact (List.Forall₂.cons hx hxs).imp fun _ _ h => h.mono (K.links_mono hu)
      · exact (List.Forall₂.cons hy hys).imp fun _ _ h => h.mono (K.links_mono hu)

theorem applyBinary_follows (hW : K.Respects W W') {s t : Scope} (h : s.address = t.address) (op : BinaryOp)
    {n n' : Nat} (hn : K.heeds → n = n') {a a' b b' : Value} (ha : K.ValueRel w a a') (hb : K.ValueRel w b b') :
    K.Follows w K.ValueRel (applyBinary W.compare s op n a b) fun d =>
      applyBinary (W' d).compare t op n' a' b' := by
  have hmismatch : K.Follows w K.ValueRel
      (object s (.mismatch op.text [a.typeName, b.typeName]) n) fun _ =>
      object t (.mismatch op.text [a'.typeName, b'.typeName]) n' := by
    rw [ha.typeName, hb.typeName]
    exact object_follows h fun hheeds => ⟨rfl, hn hheeds⟩
  cases op
  case eq | ne =>
    refine Follows.bind (hW.compare ha hb) fun u hu x y hxy => ?_
    rw [hxy]
    exact Follows.pure (.flag _)
  case add =>
    cases ha with
    | number hx =>
      cases hb with
      | number hy => exact calculate_follows h _ hn _ hx hy
      | _ => exact hmismatch
    | text s =>
      cases hb with
      | text t => exact Follows.pure (.text _)
      | _ => exact hmismatch
    | list hi hxs =>
      cases hb with
      | list hj hys => exact joinLists_follows hi hj hxs hys
      | _ => exact hmismatch
    | _ => exact hmismatch
  case lt | le | gt | ge =>
    cases ha with
    | number hx =>
      cases hb with
      | number hy =>
        simp only [applyBinary, Links.order_rel hx hy]
        exact Follows.pure (.flag _)
      | _ => exact hmismatch
    | text s =>
      cases hb with
      | text t => exact Follows.pure (.flag _)
      | _ => exact hmismatch
    | _ => exact hmismatch
  case sub | mul | div | mod =>
    cases ha with
    | number hx =>
      cases hb with
      | number hy => exact calculate_follows h _ hn _ hx hy
      | _ => exact hmismatch
    | _ => exact hmismatch

theorem applyUnary_follows {s t : Scope} (h : s.address = t.address) (op : UnaryOp) {n n' : Nat}
    (hn : K.heeds → n = n') {a b : Value} (hab : K.ValueRel w a b) :
    K.Follows w K.ValueRel (applyUnary s op n a) fun _ => applyUnary t op n' b := by
  have hmismatch : K.Follows w K.ValueRel (object s (.mismatch op.text [a.typeName]) n) fun _ =>
      object t (.mismatch op.text [b.typeName]) n' := by
    rw [hab.typeName]
    exact object_follows h fun hheeds => ⟨rfl, hn hheeds⟩
  cases op with
  | neg =>
    cases hab with
    | number hx =>
      refine Follows.bind (K.freshId w) fun u hu i j hid => Follows.pure (.number ?_)
      exact Links.negate_rel hid (hx.mono (K.links_mono hu))
    | _ => exact hmismatch
  | not =>
    cases hab with
    | flag b => exact Follows.pure (.flag _)
    | _ => exact hmismatch

/-! ## Containers -/

theorem getElem?_rel {u : K.World} {xs ys : List Slot} (h : List.Forall₂ (K.SlotRel u) xs ys) (i : Nat) :
    Option.Rel (K.SlotRel u) xs[i]? ys[i]? := by
  induction h generalizing i with
  | nil => exact .none
  | cons hxy _ ih =>
    cases i with
    | zero => exact .some hxy
    | succ i => exact ih i

theorem beyond_follows {s t : Scope} (h : s.address = t.address) {n n' : Nat} (hn : K.heeds → n = n')
    {a b : Value} (hab : K.ValueRel w a b) (i : Int) (k : Nat) :
    K.Follows w K.ValueRel (beyond s n a i k) fun _ => beyond t n' b i k := by
  unfold beyond
  rw [hab.typeName]
  cases Number.intText i with
  | some t => exact object_follows h fun hheeds => ⟨rfl, hn hheeds⟩
  | none => exact Follows.fail (K.admits_of_not id)

theorem applySubscript_follows (hW : K.Respects W W') {s t : Scope} (h : s.address = t.address) {start start' : Nat}
    (hstart : K.heeds → start = start') {a a' b b' : Value} (ha : K.ValueRel w a a') (hb : K.ValueRel w b b') :
    K.Follows w K.ValueRel (applySubscript W.force s start a b) fun d =>
      applySubscript (W' d).force t start' a' b' := by
  have hmismatch : K.Follows w K.ValueRel
      (object s (.notIndexable a.typeName b.typeName) start) fun _ =>
      object t (.notIndexable a'.typeName b'.typeName) start' := by
    rw [ha.typeName, hb.typeName]
    exact object_follows h fun hheeds => ⟨rfl, hstart hheeds⟩
  cases ha with
  | @list i j xs ys hid hxs =>
    cases hb with
    | number hn =>
      cases hn with
      | int n =>
        have hplace : Option.Rel (K.SlotRel w) ((place? xs.length n).bind (xs[·]?))
            ((place? ys.length n).bind (ys[·]?)) := by
          rw [hxs.length_eq]
          cases place? ys.length n with
          | none => exact .none
          | some k => exact getElem?_rel hxs k
        have hlength := hxs.length_eq
        simp only [applySubscript, hlength]
        rw [hlength] at hplace
        generalize (place? ys.length n).bind (xs[·]?) = x, (place? ys.length n).bind (ys[·]?) = y at hplace
        cases hplace with
        | some hxy => exact hW.force hxy
        | none => exact beyond_follows h hstart (.list hid hxs) n ys.length
      | _ => exact hmismatch
    | _ => exact hmismatch
  | text x =>
    cases hb with
    | number hn =>
      cases hn with
      | int n =>
        simp only [applySubscript]
        cases (place? x.length n).bind (x.toList[·]?) with
        | some c => exact Follows.pure (.text _)
        | none => exact beyond_follows h hstart (.text x) n x.length
      | _ => exact hmismatch
    | _ => exact hmismatch
  | @record i j xs ys hid hfs =>
    cases hb with
    | text k =>
      have hk := Table.find?_rel hfs k
      simp only [applySubscript]
      generalize Table.find? xs k = x, Table.find? ys k = y at hk
      cases hk with
      | some hxy => exact hW.force hxy
      | none => exact object_follows h fun hheeds => ⟨rfl, hstart hheeds⟩
    | _ => exact hmismatch
  | _ => exact hmismatch

theorem applyField_follows (hW : K.Respects W W') {s t : Scope} (h : s.address = t.address) (key : String)
    {n n' : Nat} (hn : K.heeds → n = n') {a b : Value} (hab : K.ValueRel w a b) :
    K.Follows w K.ValueRel (applyField W.force s key n a) fun d =>
      applyField (W' d).force t key n' b := by
  have hmismatch : K.Follows w K.ValueRel (object s (.noFields a.typeName key) n) fun _ =>
      object t (.noFields b.typeName key) n' := by
    rw [hab.typeName]
    exact object_follows h fun hheeds => ⟨rfl, hn hheeds⟩
  cases hab with
  | @record i j xs ys hid hfs =>
    have hk := Table.find?_rel hfs key
    simp only [applyField, Table.keys_rel hfs]
    generalize Table.find? xs key = x, Table.find? ys key = y at hk
    cases hk with
    | some hxy => exact hW.force hxy
    | none => exact object_follows h fun hheeds => ⟨rfl, hn hheeds⟩
  | _ => exact hmismatch

/-- A tree with nothing inside it that has an identity. -/
def IsLeaf : Tree → Prop
  | .nil | .flag _ | .text _ | .number (.int _) | .number (.float _) => True
  | _ => False

/-- Trees that look alike, to whom sees no difference between corresponding identities. -/
structure Blind (K : Correspondence σ τ) (R : K.World → Tree → Tree → Prop) : Prop where
  mono : ∀ {u w x y}, K.le u w → R u x y → R w x y
  leaf : ∀ {w x}, IsLeaf x → R w x x
  list : ∀ {w xs ys}, List.Forall₂ (R w) xs ys → R w (.list xs) (.list ys)
  record : ∀ {w fs gs}, List.Forall₂ (EntryRel (R w)) fs gs → R w (.record fs) (.record gs)
  function : ∀ {w i j}, K.ident w i j → R w (.function i) (.function j)
  nan : ∀ {w i j}, K.ident w i j → R w (.number (.nan i)) (.number (.nan j))

/-- Trees show every identity. -/
theorem blind_self (hid : ∀ {w i j}, K.ident w i j → i = j) : Blind K fun _ => Eq where
  mono _ h := h
  leaf _ := rfl
  list h := by rw [eq_of_forall₂ (fun _ _ => id) h]
  record h := by rw [eq_of_forall₂ (fun _ _ h => Prod.ext h.1 h.2) h]
  function h := by rw [hid h]
  nan h := by rw [hid h]

/-- Corresponding values look alike all the way down. The right side may go as deep as need be. -/
theorem deepWith_follows {R : K.World → Tree → Tree → Prop} (hR : Blind K R) {F : Slot → Eval σ Value}
    {F' : Nat → Slot → Eval τ Value}
    (hF : ∀ {w x y}, K.SlotRel w x y → K.Follows w K.ValueRel (F x) fun d => F' d y) (n : Nat)
    {D : Nat → Nat} (hD : ∃ k, ∀ d ≥ k, n ≤ D d ∧ (K.total → D d = n)) {a b : Value}
    (hab : K.ValueRel w a b) :
    K.Follows w R (deepWith F n a) fun d => deepWith (F' d) (D d) b := by
  induction n generalizing w D a b with
  | zero =>
    obtain ⟨k, hk⟩ := hD
    by_cases ht : K.total
    · refine Follows.congr Follows.exhaust k fun d hd => ?_
      rw [(hk d hd).2 ht]
      rfl
    · exact Follows.of_exhaust ht
  | succ n ih =>
    obtain ⟨k, hk⟩ := hD
    have hD' : ∃ k, ∀ d ≥ k, n ≤ D d - 1 ∧ (K.total → D d - 1 = n) :=
      ⟨k, fun d hd => ⟨by have := (hk d hd).1; omega, fun ht => by have := (hk d hd).2 ht; omega⟩⟩
    have hsucc : K.Follows w R (deepWith F (n + 1) a) fun d => deepWith (F' d) (D d - 1 + 1) b := by
      cases hab with
      | nil => exact Follows.pure (hR.leaf trivial)
      | flag b => exact Follows.pure (hR.leaf trivial)
      | text s => exact Follows.pure (hR.leaf trivial)
      | number h =>
        cases h with
        | int n => exact Follows.pure (hR.leaf trivial)
        | float x => exact Follows.pure (hR.leaf trivial)
        | nan h => exact Follows.pure (hR.nan h)
      | function h => exact Follows.pure (hR.function (K.closure_id h))
      | list _ h =>
        have hitem (u : K.World) (hu : K.le w u) (x y : Slot) (hxy : K.SlotRel w x y) :
            K.Follows u R (F x >>= deepWith F n) fun d => F' d y >>= deepWith (F' d) (D d - 1) :=
          Follows.bind (hF (hxy.mono (K.links_mono hu))) fun v _ a b hab => ih hD' hab
        refine Follows.bind (mapList_follows (V := R) (fun hu _ _ => hR.mono hu) hitem h w (K.le_refl w))
          fun v _ xs ys hxs => Follows.pure (hR.list hxs.1)
      | record _ h =>
        have hfield (u : K.World) (hu : K.le w u) (p q : String × Slot) (hpq : K.FieldRel w p q) :
            K.Follows u (fun u => EntryRel (R u))
              (F p.2 >>= fun v => deepWith F n v >>= fun t => pure (p.1, t)) fun d =>
              F' d q.2 >>= fun v => deepWith (F' d) (D d - 1) v >>= fun t => pure (q.1, t) :=
          Follows.bind (hF (hpq.2.mono (K.links_mono hu))) fun v _ a b hab =>
            Follows.bind (ih hD' hab) fun v' _ x y hxy => Follows.pure ⟨hpq.1, hxy⟩
        have hmono {u v : K.World} (hu : K.le u v) (p q : String × Tree) (h : EntryRel (R u) p q) :
            EntryRel (R v) p q := h.imp fun _ _ => hR.mono hu
        refine Follows.bind (mapList_follows hmono hfield h w (K.le_refl w))
          fun v _ xs ys hxs => Follows.pure (hR.record hxs.1)
    refine hsucc.congr k fun d hd => ?_
    have := (hk d hd).1
    rw [show D d - 1 + 1 = D d by omega]

/-- Two values evaluated all the way down and tested. The tests need to agree on trees that look alike. -/
theorem compare_follows {R : K.World → Tree → Tree → Prop} (hR : Blind K R) {F : Slot → Eval σ Value}
    {F' : Nat → Slot → Eval τ Value}
    (hF : ∀ {w x y}, K.SlotRel w x y → K.Follows w K.ValueRel (F x) fun d => F' d y) (n : Nat)
    {D : Nat → Nat} (hD : ∃ k, ∀ d ≥ k, n ≤ D d ∧ (K.total → D d = n))
    {test : Tree → Tree → Eval σ Bool} {test' : Tree → Tree → Eval τ Bool}
    (htest : ∀ {w x x' y y'}, R w x x' → R w y y' → K.Follows w (fun _ => Eq) (test x y) fun _ => test' x' y')
    {a a' b b' : Value} (ha : K.ValueRel w a a') (hb : K.ValueRel w b b') :
    K.Follows w (fun _ => Eq) (deepWith F n a >>= fun x => deepWith F n b >>= test x) fun d =>
      deepWith (F' d) (D d) a' >>= fun x => deepWith (F' d) (D d) b' >>= test' x := by
  refine Follows.bind (deepWith_follows hR hF n hD ha) fun u hu x x' hx => ?_
  refine Follows.bind (deepWith_follows hR hF n hD (hb.mono (K.links_mono hu))) fun v hv y y' hy => ?_
  exact htest (hR.mono hv hx) hy

/-- Comparisons have the same answer if trees that look alike are equal to the same trees. -/
theorem compareWith_follows {R : K.World → Tree → Tree → Prop} (hR : Blind K R)
    (hequal : ∀ {w x x' y y'}, R w x x' → R w y y' → x.equal y = x'.equal y') {F : Slot → Eval σ Value}
    {F' : Nat → Slot → Eval τ Value}
    (hF : ∀ {w x y}, K.SlotRel w x y → K.Follows w K.ValueRel (F x) fun d => F' d y) (n : Nat)
    {D : Nat → Nat} (hD : ∃ k, ∀ d ≥ k, n ≤ D d ∧ (K.total → D d = n)) {a a' b b' : Value}
    (ha : K.ValueRel w a a') (hb : K.ValueRel w b b') :
    K.Follows w (fun _ => Eq) (compareWith F n a b) fun d => compareWith (F' d) (D d) a' b' :=
  compare_follows hR hF n hD (fun hx hy => Follows.pure (hequal hx hy)) ha hb

/-! ## Cells -/

/-- How the two sides of a demand stand: the cells are in the same state. If they wait, their jobs
correspond once both are busy, and it makes no difference to the world how a job ends. -/
inductive Demandable (w : K.World) (run : Job → Eval σ Value) (run' : Nat → Job → Eval τ Value)
    (i j : Nat) : Prop where
  | missing (hi : (K.left w).cells[i]? = none) (hj : (K.right w).cells[j]? = none)
  | done {job job' : Job} {a b : Value} (hi : (K.left w).cells[i]? = some (.done job a))
      (hj : (K.right w).cells[j]? = some (.done job' b)) (hab : K.ValueRel w a b)
  | busy {job job' : Job} (hi : (K.left w).cells[i]? = some (.busy job))
      (hj : (K.right w).cells[j]? = some (.busy job'))
  | waiting {job job' : Job} (u : K.World) (hi : (K.left w).cells[i]? = some (.waiting job))
      (hj : (K.right w).cells[j]? = some (.waiting job'))
      (hleft : K.left u = (K.left w).setCell i (.busy job))
      (hright : K.right u = (K.right w).setCell j (.busy job'))
      (hrun : K.Follows u K.ValueRel (run job) fun d => run' d job')
      (hdone : ∀ v, K.le u v → ∀ a b, K.ValueRel v a b → ∃ x, K.le w x ∧
        K.left x = (K.left v).setCell i (.done job a) ∧ K.right x = (K.right v).setCell j (.done job' b) ∧
        K.ValueRel x a b)
      (hback : ∀ v, K.le u v → ∃ x, K.le w x ∧ K.left x = (K.left v).setCell i (.waiting job) ∧
        K.right x = (K.right v).setCell j (.waiting job'))

/-- Cells that are in the same state have corresponding results. -/
theorem demand_follows {circular : Trouble} (hcircular : K.admits circular) {run : Job → Eval σ Value} {run' : Nat → Job → Eval τ Value}
    {i j : Nat} (h : Demandable w run run' i j) :
    K.Follows w K.ValueRel (Machine.demand circular run i) fun d => Machine.demand circular (run' d) j := by
  intro o s hc ht
  cases h with
  | missing hi hj =>
    simp only [Machine.demand, hi, Prod.mk.injEq] at hc
    obtain ⟨rfl, rfl⟩ := hc
    exact ⟨w, K.le_refl w, rfl, .exhausted, .exhausted, 0, fun d _ => by simp only [Machine.demand, hj]⟩
  | done hi hj hab =>
    simp only [Machine.demand, hi, Prod.mk.injEq] at hc
    obtain ⟨rfl, rfl⟩ := hc
    exact ⟨w, K.le_refl w, rfl, _, .ok hab, 0, fun d _ => by simp only [Machine.demand, hj]⟩
  | busy hi hj =>
    simp only [Machine.demand, hi, Prod.mk.injEq] at hc
    obtain ⟨rfl, rfl⟩ := hc
    exact ⟨w, K.le_refl w, rfl, _, .error _ hcircular, 0, fun d _ => by simp only [Machine.demand, hj]⟩
  | @waiting job job' u hi hj hleft hright hrun hdone hback =>
    simp only [Machine.demand, hi, ← hleft] at hc
    rcases hjob : run job (K.left u) with ⟨r, m⟩
    cases r with
    | ok a =>
      obtain ⟨v, hv, rfl, o', ho, n, hd⟩ := hrun _ _ hjob trivial
      simp only [hjob, Prod.mk.injEq] at hc
      obtain ⟨rfl, rfl⟩ := hc
      cases ho with
      | @ok _ b hab =>
        obtain ⟨x, hx, hxl, hxr, hab'⟩ := hdone v hv a b hab
        refine ⟨x, hx, hxl, _, .ok hab', n, fun d hd' => ?_⟩
        simp only [Machine.demand, hj, ← hright, hd d hd', hxr]
    | error e =>
      simp only [hjob, Prod.mk.injEq] at hc
      obtain ⟨rfl, rfl⟩ := hc
      obtain ⟨v, hv, rfl, o', ho, n, hd⟩ := hrun _ _ hjob ht
      cases ho with
      | error _ he =>
        obtain ⟨x, hx, hxl, hxr⟩ := hback v hv
        refine ⟨x, hx, hxl, _, .error e he, n, fun d hd' => ?_⟩
        simp only [Machine.demand, hj, ← hright, hd d hd', hxr]
    | exhausted =>
      simp only [hjob, Prod.mk.injEq] at hc
      obtain ⟨rfl, rfl⟩ := hc
      obtain ⟨v, hv, rfl, o', ho, n, hd⟩ := hrun _ _ hjob ht
      cases ho with
      | exhausted =>
        obtain ⟨x, hx, hxl, hxr⟩ := hback v hv
        refine ⟨x, hx, hxl, _, .exhausted, n, fun d hd' => ?_⟩
        simp only [Machine.demand, hj, ← hright, hd d hd', hxr]

/-- Delayed expressions correspond if cells for them do. -/
theorem delay_follows {e e' : Expr} {s t : Scope} (h : K.visit w e e' s t)
    (hcell : ∃ u, K.le w u ∧ K.left u = (K.left w).pushCell (.expr e s) ∧
      K.right u = (K.right w).pushCell (.expr e' t) ∧
      (K.links u).cell (K.left w).cells.size (K.right w).cells.size) :
    K.Follows w K.SlotRel (delay s e) fun _ => delay t e' := by
  obtain ⟨u, hu, hleft, hright, hij⟩ := hcell
  have hlike := K.like h
  cases hlike with
  | literal c => exact Follows.pure (.constant c)
  | lambda params body body' n n' =>
    refine Follows.bind (K.freshId w) fun u hu i j hid => Follows.pure (.closure ?_)
    exact K.visit_lambda (K.visit_mono hu h) hid
  | _ =>
    refine Follows.move hu ?_ (fun d => ?_) (.cell hij)
    · rw [hleft]
      rfl
    · rw [hright]
      rfl

/-! ## Expressions -/

theorem applyCall_follows (hW : K.Respects W W') {s t : Scope} (h : s.address = t.address) {fn fn' : Expr}
    {args args' : List Expr} {n n' : Nat} (hsame : K.heeds → Expr.call fn args n = .call fn' args' n')
    (hargs : List.Forall₂ (fun e e' => K.visit w e e' s t) args args') {a b : Value} (hab : K.ValueRel w a b) :
    K.Follows w K.ValueRel (applyCall W s fn args n a) fun d => applyCall (W' d) t fn' args' n' b := by
  have hterm (hheeds : K.heeds) : callTerm fn n = callTerm fn' n' := by
    obtain ⟨rfl, -, rfl⟩ := Expr.call.inj (hsame hheeds)
    rfl
  have hmismatch : K.Follows w K.ValueRel
      (object s (.notCallable a.typeName (callTerm fn n).1) (callTerm fn n).2) fun _ =>
      object t (.notCallable b.typeName (callTerm fn' n').1) (callTerm fn' n').2 := by
    rw [hab.typeName]
    exact object_follows h fun hheeds => by rw [hterm hheeds]; exact ⟨rfl, rfl⟩
  cases hab with
  | @function f g hfg =>
    simp only [applyCall, ← K.params hfg, ← hargs.length_eq]
    by_cases hlength : f.params.length = args.length
    · simp only [hlength, ne_eq, not_true_eq_false, if_false]
      refine Follows.bind (delayAll_follows hW hargs) fun u hu xs ys hxs => ?_
      have henter := K.enter ((K.links_mono hu).closure hfg) hxs.1 (hxs.2.trans hlength.symm)
      rw [← K.params hfg] at henter
      exact Follows.bind henter fun v hv i j hij => hW.strict hij
    · simp only [ne_eq, hlength, not_false_eq_true, if_true]
      exact object_follows h fun hheeds => by rw [hterm hheeds]; exact ⟨rfl, rfl⟩
  | _ => exact hmismatch

/-- Corresponding expressions come to corresponding values. -/
theorem step_follows (hW : K.Respects W W') {e e' : Expr} {s t : Scope} (h : K.visit w e e' s t) :
    K.Follows w K.ValueRel (step W e s) fun d => step (W' d) e' t := by
  have haddress := K.address h
  have hlike := K.like h
  have hstart : K.heeds → e.start = e'.start := fun hheeds => by rw [K.same h hheeds]
  cases hlike with
  | literal c => exact Follows.pure (.constant c)
  | lookup name n n' =>
    refine Follows.bind (K.find h) fun u hu x y hxy => ?_
    exact hW.look (K.visit_mono hu h) hxy
  | lambda params body body' n n' =>
    refine Follows.bind (K.freshId w) fun u hu i j hid => Follows.pure (.function ?_)
    exact K.visit_lambda (K.visit_mono hu h) hid
  | binary op n n' hl hr =>
    refine Follows.bind (hW.strict hl) fun u hu a a' ha => ?_
    refine Follows.bind (hW.strict (K.visit_mono hu hr)) fun v hv b b' hb => ?_
    exact applyBinary_follows hW haddress op hstart (ha.mono (K.links_mono hv)) hb
  | shortcut op n n' hl hr =>
    have hmismatch {u : K.World} {a b : Value} (hab : K.ValueRel u a b) : K.Follows u K.ValueRel
        (object s (.mismatch op.text [a.typeName]) n) fun _ =>
        object t (.mismatch op.text [b.typeName]) n' := by
      rw [hab.typeName]
      exact object_follows haddress fun hheeds => ⟨rfl, hstart hheeds⟩
    refine Follows.bind (hW.strict hl) fun u hu a a' ha => ?_
    have hleft := hmismatch ha
    cases ha with
    | flag a =>
      by_cases hsettles : a = settles op
      · simp only [hsettles, if_true]
        exact Follows.pure (.flag _)
      · simp only [hsettles, if_false]
        refine Follows.bind (hW.strict (K.visit_mono hu hr)) fun v hv b b' hb => ?_
        have hright := hmismatch hb
        cases hb with
        | flag b => exact Follows.pure (.flag b)
        | _ => exact hright
    | _ => exact hleft
  | unary op n n' ha =>
    refine Follows.bind (hW.strict ha) fun u hu a a' ha => ?_
    exact applyUnary_follows haddress op hstart ha
  | call n n' hf has =>
    refine Follows.bind (hW.strict hf) fun u hu a a' ha => ?_
    exact applyCall_follows hW haddress (K.same h) (has.imp fun _ _ => K.visit_mono hu) ha
  | field name n n' hl =>
    refine Follows.bind (hW.strict hl) fun u hu a a' ha => ?_
    exact applyField_follows hW haddress name hstart ha
  | subscript n n' hl hi =>
    refine Follows.bind (hW.strict hl) fun u hu a a' ha => ?_
    refine Follows.bind (hW.strict (K.visit_mono hu hi)) fun v hv b b' hb => ?_
    exact applySubscript_follows hW haddress hstart (ha.mono (K.links_mono hv)) hb
  | cond n n' ht hy hn =>
    refine Follows.bind (hW.strict ht) fun u hu a a' ha => ?_
    have hmismatch : K.Follows u K.ValueRel (object s (.notAFlag a.typeName) n) fun _ =>
        object t (.notAFlag a'.typeName) n' := by
      rw [ha.typeName]
      exact object_follows haddress fun hheeds => ⟨rfl, hstart hheeds⟩
    cases ha with
    | flag b =>
      cases b with
      | true => exact hW.strict (K.visit_mono hu hy)
      | false => exact hW.strict (K.visit_mono hu hn)
    | _ => exact hmismatch
  | list n n' hes =>
    refine Follows.bind (delayAll_follows hW hes) fun u hu xs ys hxs => ?_
    refine Follows.bind (K.freshId u) fun v hv i j hid => Follows.pure (.list hid ?_)
    exact hxs.1.imp fun _ _ h => h.mono (K.links_mono hv)
  | record n n' hfs =>
    refine Follows.bind (delayFields_follows hW hfs .nil) fun u hu xs ys hxs => ?_
    refine Follows.bind (K.freshId u) fun v hv i j hid => Follows.pure (.record hid ?_)
    exact hxs.imp fun _ _ h => h.imp fun _ _ h => h.mono (K.links_mono hv)

end Correspondence

end LazyModules.Eval
