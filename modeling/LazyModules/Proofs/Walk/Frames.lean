import Mathlib.Data.List.Forall2
import LazyModules.Proofs.Table
import LazyModules.Scope

/-!
# Corresponding tables and scopes

Two tables correspond if they have the same keys in the same order and what they hold under a key
corresponds. Scopes whose frames correspond know the same names and find corresponding things under them.
-/
namespace LazyModules

/-! ## Relations between lists, options and entries -/

section Lifting

variable {α β γ : Type} {R : α → β → Prop}

theorem forall₂_turn {S : β → α → Prop} (h : ∀ a b, R a b → S b a) {xs : List α} {ys : List β}
    (hxs : List.Forall₂ R xs ys) : List.Forall₂ S ys xs :=
  (hxs.imp h).flip

theorem forall₂_join {S : β → γ → Prop} {T : α → γ → Prop} (h : ∀ a b c, R a b → S b c → T a c)
    {xs : List α} {ys : List β} {zs : List γ} (hxs : List.Forall₂ R xs ys) (hys : List.Forall₂ S ys zs) :
    List.Forall₂ T xs zs := by
  induction hxs generalizing zs with
  | nil => cases hys; exact .nil
  | cons hx _ ih =>
    cases hys with
    | cons hy hys => exact .cons (h _ _ _ hx hy) (ih hys)

theorem forall₂_right {S : β → β → Prop} (h : ∀ a b, R a b → S b b) {xs : List α} {ys : List β}
    (hxs : List.Forall₂ R xs ys) : List.Forall₂ S ys ys := by
  induction hxs with
  | nil => exact .nil
  | cons hx _ ih => exact .cons (h _ _ hx) ih

theorem eq_of_forall₂ {S : α → α → Prop} (h : ∀ a b, S a b → a = b) {xs ys : List α}
    (hxs : List.Forall₂ S xs ys) : xs = ys := by
  rw [← List.forall₂_eq_eq_eq]
  exact hxs.imp h

theorem optionRel_imp {S : α → β → Prop} (h : ∀ a b, R a b → S a b) {x : Option α} {y : Option β}
    (hxy : Option.Rel R x y) : Option.Rel S x y := by
  cases hxy with
  | some hab => exact .some (h _ _ hab)
  | none => exact .none

theorem optionRel_turn {S : β → α → Prop} (h : ∀ a b, R a b → S b a) {x : Option α} {y : Option β}
    (hxy : Option.Rel R x y) : Option.Rel S y x := by
  cases hxy with
  | some hab => exact .some (h _ _ hab)
  | none => exact .none

theorem optionRel_join {S : β → γ → Prop} {T : α → γ → Prop} (h : ∀ a b c, R a b → S b c → T a c)
    (x : Option α) (y : Option β) (z : Option γ) (hxy : Option.Rel R x y) (hyz : Option.Rel S y z) :
    Option.Rel T x z := by
  cases hxy with
  | some hab =>
    cases hyz with
    | some hbc => exact .some (h _ _ _ hab hbc)
  | none =>
    cases hyz
    exact .none

theorem optionRel_right {S : β → β → Prop} (h : ∀ a b, R a b → S b b) {x : Option α} {y : Option β}
    (hxy : Option.Rel R x y) : Option.Rel S y y := by
  cases hxy with
  | some hab => exact .some (h _ _ hab)
  | none => exact .none

def EntryRel (R : α → β → Prop) (p : String × α) (q : String × β) : Prop :=
  p.1 = q.1 ∧ R p.2 q.2

theorem EntryRel.imp {S : α → β → Prop} (h : ∀ a b, R a b → S a b) {p : String × α}
    {q : String × β} (hpq : EntryRel R p q) : EntryRel S p q :=
  ⟨hpq.1, h _ _ hpq.2⟩

theorem EntryRel.turn {S : β → α → Prop} (h : ∀ a b, R a b → S b a) {p : String × α}
    {q : String × β} (hpq : EntryRel R p q) : EntryRel S q p :=
  ⟨hpq.1.symm, h _ _ hpq.2⟩

theorem EntryRel.join {S : β → γ → Prop} {T : α → γ → Prop} (h : ∀ a b c, R a b → S b c → T a c)
    (p : String × α) (q : String × β) (r : String × γ) (hpq : EntryRel R p q) (hqr : EntryRel S q r) :
    EntryRel T p r :=
  ⟨hpq.1.trans hqr.1, h _ _ _ hpq.2 hqr.2⟩

theorem EntryRel.right {S : β → β → Prop} (h : ∀ a b, R a b → S b b) {p : String × α}
    {q : String × β} (hpq : EntryRel R p q) : EntryRel S q q :=
  ⟨rfl, h _ _ hpq.2⟩

end Lifting

/-! ## Tables -/

namespace Table

variable {α β : Type} {R : α → β → Prop} {t : Table α} {t' : Table β}

theorem insert_rel (h : List.Forall₂ (EntryRel R) t t') (k : String) {x : α} {y : β} (hxy : R x y) :
    List.Forall₂ (EntryRel R) (insert t k x) (insert t' k y) := by
  induction h with
  | nil => exact .cons ⟨rfl, hxy⟩ .nil
  | @cons p q ps qs hpq hs ih =>
    obtain ⟨n, v⟩ := p
    obtain ⟨n', v'⟩ := q
    obtain ⟨rfl, hv⟩ := hpq
    simp only [insert]
    split
    · exact .cons ⟨rfl, hxy⟩ hs
    · exact .cons ⟨rfl, hv⟩ ih

theorem insertAll_rel {ps : Table α} {qs : Table β} (hps : List.Forall₂ (EntryRel R) ps qs)
    (h : List.Forall₂ (EntryRel R) t t') : List.Forall₂ (EntryRel R) (insertAll t ps) (insertAll t' qs) := by
  induction hps generalizing t t' with
  | nil => exact h
  | @cons p q ps qs hpq _ ih =>
    obtain ⟨k, x⟩ := p
    obtain ⟨k', y⟩ := q
    obtain ⟨rfl, hxy⟩ := hpq
    exact ih (insert_rel h k hxy)

theorem find?_rel (h : List.Forall₂ (EntryRel R) t t') (k : String) :
    Option.Rel R (find? t k) (find? t' k) := by
  induction h with
  | nil => exact .none
  | @cons p q ps qs hpq _ ih =>
    obtain ⟨n, x⟩ := p
    obtain ⟨n', y⟩ := q
    obtain ⟨rfl, hxy⟩ := hpq
    rw [find?_cons, find?_cons]
    split
    · exact .some hxy
    · exact ih

theorem keys_rel (h : List.Forall₂ (EntryRel R) t t') : keys t = keys t' := by
  induction h with
  | nil => rfl
  | cons hpq _ ih => simp only [keys, List.map_cons] at ih ⊢; rw [hpq.1, ih]

end Table

/-! ## Scopes -/

namespace Scope

variable {α β : Type} {R : α → β → Prop} {B : Nat → Nat → Prop} {fs : Frames α} {gs : Frames β}
  {s t : Scope}

theorem lookup?_rel (hB : ∀ i j, B i j → List.Forall₂ (EntryRel (Option.Rel R)) (fs.frame i) (gs.frame j))
    (h : List.Forall₂ B s.frames t.frames) (name : String) :
    Option.Rel (Option.Rel R) (s.lookup? fs name) (t.lookup? gs name) := by
  simp only [lookup?]
  generalize s.frames = is, t.frames = js at h
  induction h with
  | nil => exact .none
  | @cons i j is js hij _ ih =>
    have hfind := Table.find?_rel (hB i j hij) name
    simp only [lookupIn]
    generalize Table.find? (fs.frame i) name = x, Table.find? (gs.frame j) name = y at hfind
    cases hfind with
    | some h => exact .some h
    | none => exact ih

theorem names_rel (hB : ∀ i j, B i j → List.Forall₂ (EntryRel (Option.Rel R)) (fs.frame i) (gs.frame j))
    (h : List.Forall₂ B s.frames t.frames) : s.names fs = t.names gs := by
  simp only [names]
  generalize s.frames = is, t.frames = js at h
  generalize ([] : List String) = seen
  induction h generalizing seen with
  | nil => rfl
  | @cons i j is js hij _ ih =>
    simp only [List.foldl_cons]
    rw [Table.keys_rel (hB i j hij)]
    exact ih _

end Scope

end LazyModules
