import LazyModules.Computation

/-!
# Comparing computations

Two computations run side by side, on states of their own. A world holds both states and whatever else is
known of them; `Follows w V c c'` says that what the left one does from `w` the right one does too, that
their results are related by `V`, and that they end in a later world.

The right side is a family, and it is enough that all but the first of its members do as the left one. So
a bounded computation can be compared with one whose bound is as large as need be.
-/
namespace LazyModules

/-- Outcomes that are alike: results related by `V`, the same error, which is one of `E`, or no outcome on
either side. -/
inductive Outcome.Rel {ε α β : Type} (V : α → β → Prop) (E : ε → Prop) :
    Outcome ε α → Outcome ε β → Prop where
  | ok {a : α} {b : β} (h : V a b) : Rel V E (.ok a) (.ok b)
  | error (e : ε) (h : E e) : Rel V E (.error e) (.error e)
  | exhausted : Rel V E .exhausted .exhausted

theorem Outcome.Rel.imp {ε α β : Type} {V W : α → β → Prop} {E F : ε → Prop} {o : Outcome ε α}
    {o' : Outcome ε β} (h : Outcome.Rel V E o o') (hVW : ∀ a b, V a b → W a b) (hEF : ∀ e, E e → F e) :
    Outcome.Rel W F o o' := by
  cases h with
  | ok h => exact .ok (hVW _ _ h)
  | error e h => exact .error e (hEF e h)
  | exhausted => exact .exhausted

/-- A computation that ends with an error, whatever the state. -/
def Computation.Fails {S ε α : Type} (c : Computation S ε α) : Prop := ∀ s, ∃ e s', c s = (.error e, s')

/-- States of two sides, and how they may go on. -/
structure Worlds (S T ε : Type) where
  World : Type
  left : World → S
  right : World → T
  /-- the second world is the first one or comes after it -/
  le : World → World → Prop
  /-- whether the right side has to follow where the left one runs out of depth -/
  total : Prop
  /-- whether the right side has to follow where the left one fails -/
  heeds : Prop
  /-- the errors that may arise -/
  admits : ε → Prop
  le_refl : ∀ w, le w w
  le_trans : ∀ {u v w}, le u v → le v w → le u w

namespace Worlds

variable {S T ε α β γ δ : Type} (K : Worlds S T ε)

/-- The outcomes that the right side has to follow. -/
def Minds : Outcome ε α → Prop
  | .ok _ => True
  | .error _ => K.heeds
  | .exhausted => K.total

theorem minds_of_ne {o : Outcome ε α} (hheeds : K.heeds) (ho : o ≠ .exhausted) : K.Minds o := by
  cases o with
  | ok a => trivial
  | error e => exact hheeds
  | exhausted => exact absurd rfl ho

theorem ne_of_minds {o : Outcome ε α} (htotal : ¬ K.total) (ho : K.Minds o) : o ≠ .exhausted := by
  rintro rfl
  exact htotal ho

theorem minds_of_all (htotal : K.total) (hheeds : K.heeds) (o : Outcome ε α) : K.Minds o := by
  cases o with
  | ok a => trivial
  | error e => exact hheeds
  | exhausted => exact htotal

/-- What the left side does from a world, the right side does in the end. -/
def Follows (w : K.World) (V : K.World → α → β → Prop) (c : Computation S ε α)
    (c' : Nat → Computation T ε β) : Prop :=
  ∀ o s, c (K.left w) = (o, s) → K.Minds o →
    ∃ w', K.le w w' ∧ K.left w' = s ∧
      ∃ o', o.Rel (V w') K.admits o' ∧ ∃ n, ∀ d ≥ n, c' d (K.right w) = (o', K.right w')

variable {K} {w : K.World} {V W : K.World → α → β → Prop} {U : K.World → γ → δ → Prop}
  {c : Computation S ε α} {c' : Nat → Computation T ε β}

theorem Follows.imp (h : K.Follows w V c c') (hVW : ∀ w', K.le w w' → ∀ a b, V w' a b → W w' a b) :
    K.Follows w W c c' := by
  intro o s hc ht
  obtain ⟨w', hw, hs, o', ho, hd⟩ := h o s hc ht
  exact ⟨w', hw, hs, o', ho.imp (hVW w' hw) (fun _ => id), hd⟩

/-- Only the later members of the family count. -/
theorem Follows.congr {c'' : Nat → Computation T ε β} (h : K.Follows w V c c') (n : Nat)
    (hn : ∀ d ≥ n, c'' d = c' d) : K.Follows w V c c'' := by
  intro o s hc ht
  obtain ⟨w', hw, hs, o', ho, k, hd⟩ := h o s hc ht
  refine ⟨w', hw, hs, o', ho, max n k, fun d hd' => ?_⟩
  rw [hn d (by omega)]
  exact hd d (by omega)

/-- A family may be taken in other steps, as long as these go on and on. -/
theorem Follows.reindex (h : K.Follows w V c c') {g : Nat → Nat} (hg : ∀ n, ∃ k, ∀ d ≥ k, n ≤ g d) :
    K.Follows w V c fun d => c' (g d) := by
  intro o s hc ht
  obtain ⟨w', hw, hs, o', ho, n, hd⟩ := h o s hc ht
  obtain ⟨k, hk⟩ := hg n
  exact ⟨w', hw, hs, o', ho, k, fun d hd' => hd _ (hk d hd')⟩

/-- Two steps that lead to a world. -/
theorem Follows.move {u : K.World} {a : α} {b : β} (hu : K.le w u) (hc : c (K.left w) = (.ok a, K.left u))
    (hc' : ∀ d, c' d (K.right w) = (.ok b, K.right u)) (h : V u a b) : K.Follows w V c c' := by
  intro o s hos _
  obtain ⟨rfl, rfl⟩ := Prod.mk.inj (hc.symm.trans hos)
  exact ⟨u, hu, rfl, .ok b, .ok h, 0, fun d _ => hc' d⟩

theorem Follows.pure {a : α} {b : β} (h : V w a b) :
    K.Follows w V (Pure.pure a : Computation S ε α) (fun _ => Pure.pure b) := by
  rintro o s ⟨⟩ -
  exact ⟨w, K.le_refl w, rfl, .ok b, .ok h, 0, fun _ _ => rfl⟩

theorem Follows.fail {e : ε} (he : K.admits e) :
    K.Follows w V (Computation.fail e) (fun _ => Computation.fail e) := by
  rintro o s ⟨⟩ -
  exact ⟨w, K.le_refl w, rfl, .error e, .error e he, 0, fun _ _ => rfl⟩

theorem Follows.exhaust :
    K.Follows w V (Computation.exhaust : Computation S ε α) (fun _ => Computation.exhaust) := by
  rintro o s ⟨⟩ -
  exact ⟨w, K.le_refl w, rfl, .exhausted, .exhausted, 0, fun _ _ => rfl⟩

/-- A left side that runs out of depth is followed by anything, unless all of it is to be followed. -/
theorem Follows.of_exhaust (h : ¬ K.total) :
    K.Follows w V (Computation.exhaust : Computation S ε α) c' := by
  rintro o s ⟨⟩ ht
  exact absurd ht h

/-- A left side that fails is followed by anything, unless failures are to be followed. -/
theorem Follows.of_fails (h : ¬ K.heeds) (hc : c.Fails) : K.Follows w V c c' := by
  intro o s hos hminds
  obtain ⟨e, s', hfails⟩ := hc (K.left w)
  obtain ⟨rfl, -⟩ := Prod.mk.inj (hfails.symm.trans hos)
  exact absurd hminds h

theorem Follows.bind {f : α → Computation S ε γ} {f' : Nat → β → Computation T ε δ}
    (h : K.Follows w V c c')
    (hf : ∀ w', K.le w w' → ∀ a b, V w' a b → K.Follows w' U (f a) (fun d => f' d b)) :
    K.Follows w U (c >>= f) (fun d => c' d >>= f' d) := by
  intro o s hc ht
  change c.bind f (K.left w) = (o, s) at hc
  match hcs : c (K.left w) with
  | (.ok a, s₁) =>
    obtain ⟨w₁, hw₁, rfl, o₁, ho₁, n₁, hd₁⟩ := h _ _ hcs trivial
    cases ho₁ with
    | @ok _ b hV =>
      simp only [Computation.bind, hcs] at hc
      obtain ⟨w₂, hw₂, hs₂, o₂, ho₂, n₂, hd₂⟩ := hf w₁ hw₁ a b hV o s hc ht
      refine ⟨w₂, K.le_trans hw₁ hw₂, hs₂, o₂, ho₂, max n₁ n₂, fun d hd => ?_⟩
      change (c' d).bind (f' d) (K.right w) = _
      simp only [Computation.bind, hd₁ d (by omega), hd₂ d (by omega)]
  | (.error e, s₁) =>
    simp only [Computation.bind, hcs, Prod.mk.injEq] at hc
    obtain ⟨rfl, rfl⟩ := hc
    obtain ⟨w₁, hw₁, hs₁, o₁, ho₁, n₁, hd₁⟩ := h _ _ hcs ht
    cases ho₁ with
    | error _ he =>
      refine ⟨w₁, hw₁, hs₁, .error e, .error e he, n₁, fun d hd => ?_⟩
      change (c' d).bind (f' d) (K.right w) = _
      simp only [Computation.bind, hd₁ d hd]
  | (.exhausted, s₁) =>
    simp only [Computation.bind, hcs, Prod.mk.injEq] at hc
    obtain ⟨rfl, rfl⟩ := hc
    obtain ⟨w₁, hw₁, hs₁, o₁, ho₁, n₁, hd₁⟩ := h _ _ hcs ht
    cases ho₁ with
    | exhausted =>
      refine ⟨w₁, hw₁, hs₁, .exhausted, .exhausted, n₁, fun d hd => ?_⟩
      change (c' d).bind (f' d) (K.right w) = _
      simp only [Computation.bind, hd₁ d hd]

/-- A handler is compared where the error arose. If errors do not count, it may not recover from one. -/
theorem Follows.tryCatch {f : ε → Computation S ε α} {f' : Nat → ε → Computation T ε β}
    (h : K.Follows w V c c') (hfails : K.heeds ∨ ∀ e, (f e).Fails)
    (hf : ∀ w', K.le w w' → ∀ e, K.admits e → K.Follows w' V (f e) (fun d => f' d e)) :
    K.Follows w V (c.tryCatch f) (fun d => (c' d).tryCatch (f' d)) := by
  intro o s hc ht
  match hcs : c (K.left w) with
  | (.error e, s₁) =>
    simp only [Computation.tryCatch, hcs] at hc
    have hheeds : K.heeds := by
      refine hfails.elim id fun hfails => ?_
      obtain ⟨e', s', hf'⟩ := hfails e s₁
      obtain ⟨rfl, -⟩ := Prod.mk.inj (hf'.symm.trans hc)
      exact ht
    obtain ⟨w₁, hw₁, rfl, o₁, ho₁, n₁, hd₁⟩ := h _ _ hcs hheeds
    cases ho₁ with
    | error _ he =>
      obtain ⟨w₂, hw₂, hs₂, o₂, ho₂, n₂, hd₂⟩ := hf w₁ hw₁ e he o s hc ht
      refine ⟨w₂, K.le_trans hw₁ hw₂, hs₂, o₂, ho₂, max n₁ n₂, fun d hd => ?_⟩
      simp only [Computation.tryCatch, hd₁ d (by omega), hd₂ d (by omega)]
  | (.ok a, s₁) | (.exhausted, s₁) =>
    simp only [Computation.tryCatch, hcs, Prod.mk.injEq] at hc
    obtain ⟨rfl, rfl⟩ := hc
    obtain ⟨w₁, hw₁, hs₁, o₁, ho₁, n₁, hd₁⟩ := h _ _ hcs ht
    refine ⟨w₁, hw₁, hs₁, o₁, ho₁, n₁, fun d hd => ?_⟩
    cases ho₁
    simp only [Computation.tryCatch, hd₁ d hd]

/-- A change to the states that is made however a computation ends. -/
theorem Follows.ensure {f : S → S} {g : T → T} (h : K.Follows w V c c')
    (hV : ∀ {u v}, K.le u v → ∀ a b, V u a b → V v a b)
    (hchange : ∀ u, K.le w u → ∃ v, K.le u v ∧ K.left v = f (K.left u) ∧ K.right v = g (K.right u)) :
    K.Follows w V (c.ensure f) fun d => (c' d).ensure g := by
  intro o s hc hminds
  obtain ⟨rfl, rfl⟩ := Prod.mk.inj hc
  obtain ⟨u, hu, hleft, o', ho, n, hd⟩ := h _ _ rfl hminds
  obtain ⟨v, hv, hvleft, hvright⟩ := hchange u hu
  refine ⟨v, K.le_trans hu hv, ?_, o', ho.imp (hV hv) (fun _ => id), n, fun d hd' => ?_⟩
  · rw [hvleft, hleft]
  · simp only [Computation.ensure, hd d hd', hvright]

/-- If neither failures nor want of depth count, only results are to be followed. -/
theorem Follows.of_ok (htotal : ¬ K.total) (hheeds : ¬ K.heeds)
    (h : ∀ a s, c (K.left w) = (.ok a, s) → ∃ w', K.le w w' ∧ K.left w' = s ∧
      ∃ b, V w' a b ∧ ∀ d, c' d (K.right w) = (.ok b, K.right w')) : K.Follows w V c c' := by
  intro o s hc hminds
  cases o with
  | ok a =>
    obtain ⟨w', hw, hs, b, hV, hd⟩ := h a s hc
    exact ⟨w', hw, hs, .ok b, .ok hV, 0, fun d _ => hd d⟩
  | error e => exact absurd hminds hheeds
  | exhausted => exact absurd hminds htotal

end Worlds

end LazyModules
