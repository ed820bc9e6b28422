import LazyModules.Eval.Display
import LazyModules.Proofs.Need.Identity
import LazyModules.Proofs.Walk.Correspondence

/-!
# Corresponding values look the same

Identities show in two places: a container that is met again inside itself is shown as `...`, and functions are equal
if they are the very same. If the identities of two evaluations correspond one to one, neither tells the sides apart.

**Results.** `displayWith_follows`: corresponding values are shown by the same text. `blind_renamed`,
`equal_of_renamed`: corresponding values are equal to corresponding values.
-/
namespace LazyModules

/-! ## Renaming one to one -/

/-- Pairs of which neither side occurs twice. -/
structure OneToOne (R : Nat → Nat → Prop) : Prop where
  iff : ∀ {i i' j j'}, R i j → R i' j' → (i = i' ↔ j = j')

open Classical in
/-- A number for the left side of a pair that comes from the right side, and a number of their own for all others. -/
noncomputable def renamed (R : Nat → Nat → Prop) (i : Nat) : Nat :=
  if h : ∃ j, R i j then 2 * h.choose else 2 * i + 1

theorem renamed_eq {R : Nat → Nat → Prop} (hR : OneToOne R) {i j : Nat} (h : R i j) : renamed R i = 2 * j := by
  have hex : ∃ j, R i j := ⟨j, h⟩
  rw [renamed, dif_pos hex, (hR.iff hex.choose_spec h).mp rfl]

theorem renamed_injective {R : Nat → Nat → Prop} (hR : OneToOne R) : Function.Injective (renamed R) := by
  intro i i' h
  by_cases hi : ∃ j, R i j
  · obtain ⟨j, hj⟩ := hi
    by_cases hi' : ∃ j, R i' j
    · obtain ⟨j', hj'⟩ := hi'
      rw [renamed_eq hR hj, renamed_eq hR hj'] at h
      exact (hR.iff hj hj').mpr (by omega)
    · rw [renamed_eq hR hj, renamed, dif_neg hi'] at h
      omega
  · by_cases hi' : ∃ j, R i' j
    · obtain ⟨j', hj'⟩ := hi'
      rw [renamed_eq hR hj', renamed, dif_neg hi] at h
      omega
    · rw [renamed, renamed, dif_neg hi, dif_neg hi'] at h
      omega

/-- Trees are equal as they were if their identities are renamed without being mixed up. -/
theorem Tree.equal_relabel {f : Nat → Nat} (hf : Function.Injective f) (x y : Tree) :
    (x.relabel f).equal (y.relabel f) = x.equal y := by
  have hup := @equal_relabel_imp (fun i => i) (fun i => i) f f (fun _ _ h => congrArg f h) x y
  have hdown := @equal_relabel_imp f f (fun i => i) (fun i => i) (fun _ _ h => hf h) x y
  rw [relabel_id, relabel_id] at hup hdown
  exact Bool.eq_iff_iff.mpr ⟨hdown, hup⟩

theorem Tree.relabelItems_congr {f g : Nat → Nat} {xs ys : List Tree}
    (h : List.Forall₂ (fun x y => x.relabel f = y.relabel g) xs ys) :
    relabelItems f xs = relabelItems g ys := by
  induction h with
  | nil => rfl
  | cons hxy _ ih => rw [relabelItems, relabelItems, hxy, ih]

theorem Tree.relabelFields_congr {f g : Nat → Nat} {xs ys : List (String × Tree)}
    (h : List.Forall₂ (EntryRel fun x y => x.relabel f = y.relabel g) xs ys) :
    relabelFields f xs = relabelFields g ys := by
  induction h with
  | nil => rfl
  | @cons p q _ _ hpq _ ih =>
    obtain ⟨n, x⟩ := p
    obtain ⟨n', y⟩ := q
    obtain ⟨rfl, hxy⟩ := hpq
    rw [relabelFields, relabelFields, hxy, ih]

/-- Trees with identities that are renamed one to one are equal to the same things. -/
theorem Tree.equal_of_renamed {R : Nat → Nat → Prop} (hR : OneToOne R) {x x' y y' : Tree}
    (hx : x.relabel (renamed R) = x'.relabel fun j => 2 * j) (hy : y.relabel (renamed R) = y'.relabel fun j => 2 * j) :
    x.equal y = x'.equal y' := by
  have hdouble : Function.Injective fun j : Nat => 2 * j := fun i j h => by
    change 2 * i = 2 * j at h
    omega
  rw [← equal_relabel (renamed_injective hR) x y, hx, hy, equal_relabel hdouble]

namespace Eval.Correspondence

open Worlds

variable {σ τ : Type} {K : Correspondence σ τ} {w : K.World}

/-! ## Comparing -/

/-- Trees that are the same but for corresponding identities, now and later. -/
def Renamed (K : Correspondence σ τ) (w : K.World) (x y : Tree) : Prop :=
  ∀ u, K.le w u → x.relabel (renamed (K.ident u)) = y.relabel fun j => 2 * j

theorem blind_renamed (hid : ∀ w, OneToOne (K.ident w)) : Blind K (Renamed K) where
  mono hle h u hu := h u (K.le_trans hle hu)
  leaf {w x} hx u hu := by
    cases x with
    | number n => cases n <;> first | rfl | cases hx
    | nil | flag _ | text _ => rfl
    | list _ | record _ | function _ => cases hx
  list h u hu := by
    simp only [Tree.relabel]
    rw [Tree.relabelItems_congr (h.imp fun _ _ h => h u hu)]
  record h u hu := by
    simp only [Tree.relabel]
    rw [Tree.relabelFields_congr (h.imp fun _ _ h => h.imp fun _ _ h => h u hu)]
  function h u hu := by
    simp only [Tree.relabel]
    rw [renamed_eq (hid u) ((K.links_mono hu).ident h)]
  nan h u hu := by
    simp only [Tree.relabel, Number.relabel]
    rw [renamed_eq (hid u) ((K.links_mono hu).ident h)]

/-- What is renamed one to one is equal to the same things. -/
theorem equal_of_renamed (hid : ∀ w, OneToOne (K.ident w)) {x x' y y' : Tree} (hx : Renamed K w x x')
    (hy : Renamed K w y y') : x.equal y = x'.equal y' :=
  Tree.equal_of_renamed (hid w) (hx w (K.le_refl w)) (hy w (K.le_refl w))

/-! ## Showing -/

theorem contains_rel (hid : OneToOne (K.ident w)) {i j : Nat} (hij : K.ident w i j) {is js : List Nat}
    (h : List.Forall₂ (K.ident w) is js) : is.contains i = js.contains j := by
  induction h with
  | nil => rfl
  | @cons i' j' is js hij' _ ih =>
    rw [List.contains_cons, List.contains_cons, ih]
    congr 1
    exact Bool.eq_iff_iff.mpr (by simpa only [beq_iff_eq] using hid.iff hij hij')

theorem text_rel {m n : Number} (h : K.NumberRel w m n) : m.text = n.text := by
  cases h <;> rfl

/-- Corresponding values inside corresponding containers are shown by the same text. -/
theorem showWith_follows (hid : ∀ w, OneToOne (K.ident w)) {F : Slot → Eval σ Value} {F' : Nat → Slot → Eval τ Value}
    (hF : ∀ {w x y}, K.SlotRel w x y → K.Follows w K.ValueRel (F x) fun d => F' d y) (n : Nat)
    {busy busy' : List Nat} (hbusy : List.Forall₂ (K.ident w) busy busy') {a b : Value} (hab : K.ValueRel w a b) :
    K.Follows w (fun _ => Eq) (showWith F n busy a) fun d => showWith (F' d) n busy' b := by
  induction n generalizing w busy busy' a b with
  | zero => exact Follows.exhaust
  | succ n ih =>
    cases hab with
    | nil | flag b | text s => exact Follows.pure rfl
    | number h =>
      simp only [showWith, text_rel h]
      split
      · exact Follows.pure rfl
      · exact Follows.fail (K.admits_of_not id)
    | function h => exact Follows.pure rfl
    | @list i j xs ys hij h =>
      simp only [showWith, contains_rel (hid w) hij hbusy]
      split
      · exact Follows.pure rfl
      · have hitem (u : K.World) (hu : K.le w u) (x y : Slot) (hxy : K.SlotRel w x y) :
            K.Follows u (fun _ => Eq) (F x >>= showWith F n (i :: busy)) fun d =>
              F' d y >>= showWith (F' d) n (j :: busy') :=
          Follows.bind (hF (hxy.mono (K.links_mono hu))) fun v hv a b hab => by
            refine ih ?_ hab
            exact (List.Forall₂.cons hij hbusy).imp fun _ _ h => (K.links_mono (K.le_trans hu hv)).ident h
        refine Follows.bind (mapList_follows (fun _ _ _ h => h) hitem h w (K.le_refl w)) fun v _ xs ys hxs => ?_
        rw [eq_of_forall₂ (fun _ _ h => h) hxs.1]
        exact Follows.pure rfl
    | @record i j xs ys hij h =>
      simp only [showWith, contains_rel (hid w) hij hbusy]
      split
      · exact Follows.pure rfl
      · have hfield (u : K.World) (hu : K.le w u) (p q : String × Slot) (hpq : K.FieldRel w p q) :
            K.Follows u (fun _ => Eq)
              (F p.2 >>= fun v => showWith F n (i :: busy) v >>= fun t => pure (p.1 ++ ": " ++ t)) fun d =>
              F' d q.2 >>= fun v => showWith (F' d) n (j :: busy') v >>= fun t => pure (q.1 ++ ": " ++ t) := by
          refine Follows.bind (hF (hpq.2.mono (K.links_mono hu))) fun v hv a b hab => ?_
          refine Follows.bind (ih ?_ hab) fun v' _ s t hst => ?_
          · exact (List.Forall₂.cons hij hbusy).imp fun _ _ h => (K.links_mono (K.le_trans hu hv)).ident h
          · rw [hst, hpq.1]
            exact Follows.pure rfl
        refine Follows.bind (mapList_follows (fun _ _ _ h => h) hfield h w (K.le_refl w)) fun v _ xs ys hxs => ?_
        rw [eq_of_forall₂ (fun _ _ h => h) hxs.1]
        exact Follows.pure rfl

/-- Corresponding values are shown by the same text. -/
theorem displayWith_follows (hid : ∀ w, OneToOne (K.ident w)) {F : Slot → Eval σ Value}
    {F' : Nat → Slot → Eval τ Value}
    (hF : ∀ {w x y}, K.SlotRel w x y → K.Follows w K.ValueRel (F x) fun d => F' d y) (n : Nat) {a b : Value}
    (hab : K.ValueRel w a b) :
    K.Follows w (fun _ => Eq) (displayWith F n a) fun d => displayWith (F' d) n b := by
  have hshow := showWith_follows hid hF n .nil hab
  cases hab with
  | text s => exact Follows.pure rfl
  | _ => exact hshow

end Eval.Correspondence

end LazyModules
