import LazyModules.Proofs.Data.Spelled
import LazyModules.Proofs.Walk.Heap

/-!
# Displayed data reads back

What is displayed of data is an expression that has the data for its value. To evaluate it is to make cells
for its parts and to demand them later, in the order in which they were made, while each of them makes cells
of its own. `Promises make use b` says that what `make` makes is good for the result `b` as long as nobody else
touches the cells that were made for it.

**Results.** `Promises.mapList`, `Promises.delay`: promises of many parts, and of a part that is delayed.
`yields_list`, `yields_record`: containers. `spelled_written`: what is written of data spells an expression
that yields it. `displayed_reads_back`: the two put together.
-/
namespace LazyModules

namespace Eval

variable {σ α β γ δ : Type}

/-! ## Promises -/

/-- No cell is touched, and cells may have been added. -/
structure Adds (h h' : Heap σ) : Prop where
  size : h.cells.size ≤ h'.cells.size
  cells : ∀ k < h.cells.size, h'.cells[k]? = h.cells[k]?

/-- The cells from the place `k` on are what they were. -/
structure Since (k : Nat) (h g : Heap σ) : Prop where
  size : h.cells.size ≤ g.cells.size
  cells : ∀ j, k ≤ j → j < h.cells.size → g.cells[j]? = h.cells[j]?

/-- No cell is touched but those from `i` up to `j`. -/
structure Spares (i j : Nat) (g g' : Heap σ) : Prop where
  size : g.cells.size ≤ g'.cells.size
  cells : ∀ k < g.cells.size, k < i ∨ j ≤ k → g'.cells[k]? = g.cells[k]?

theorem Adds.refl (h : Heap σ) : Adds h h := ⟨Nat.le_refl _, fun _ _ => rfl⟩

theorem Adds.trans {h h' h'' : Heap σ} (hle : Adds h h') (hle' : Adds h' h'') : Adds h h'' := by
  refine ⟨Nat.le_trans hle.size hle'.size, fun k hk => ?_⟩
  have hsize := hle.size
  rw [hle'.cells k (by omega), hle.cells k hk]

theorem Spares.refl (i j : Nat) (g : Heap σ) : Spares i j g g := ⟨Nat.le_refl _, fun _ _ _ => rfl⟩

theorem Spares.trans {i j i' j' : Nat} {g g' g'' : Heap σ} (h : Spares i j g g') (h' : Spares j' i' g' g'')
    (hi : i ≤ j') (hj : j ≤ i') : Spares i i' g g'' := by
  refine ⟨Nat.le_trans h.size h'.size, fun k hk hspared => ?_⟩
  have hsize := h.size
  rw [h'.cells k (by omega) (by omega), h.cells k hk (by omega)]

/-- What is made is used with a certain result, unless what was made for it has been touched. Neither
touches what others have made. -/
def Promises (make : Eval σ α) (use : α → Eval σ β) (b : β) : Prop :=
  ∀ h, ∃ a h₁, make h = (.ok a, h₁) ∧ Adds h h₁ ∧
    ∀ g, Since h.cells.size h₁ g → ∃ g', use a g = (.ok b, g') ∧ Spares h.cells.size h₁.cells.size g g'

theorem Promises.pure {a : α} {use : α → Eval σ β} {b : β} (huse : ∀ g, use a g = (.ok b, g)) :
    Promises (Pure.pure a) use b :=
  fun h => ⟨a, h, rfl, .refl _, fun g _ => ⟨g, huse g, .refl _ _ _⟩⟩

/-- Promises that are made one after the other are kept one after the other. -/
theorem Promises.mapList {make : α → Eval σ β} {use : β → Eval σ γ} {as : List α} {cs : List γ}
    (hall : List.Forall₂ (fun a c => Promises (make a) use c) as cs) :
    Promises (Eval.mapList make as) (Eval.mapList use) cs := by
  induction hall with
  | nil => exact .pure fun _ => rfl
  | cons ha _ ih =>
    intro h
    obtain ⟨b, h₁, hmake, hadds, huse⟩ := ha h
    obtain ⟨bs, h₂, hmakes, hadds', huses⟩ := ih h₁
    have hsize := hadds.size
    have hsize' := hadds'.size
    refine ⟨b :: bs, h₂, (bind_of_ok hmake).trans (bind_of_ok hmakes), hadds.trans hadds', fun g hg => ?_⟩
    have hsizeg := hg.size
    -- what was made first has not been touched by what was made next
    obtain ⟨g', hused, hsparesg⟩ := huse g
      ⟨Nat.le_trans hsize' hg.size, fun j hj hj' => by
        rw [hg.cells j hj (by omega), hadds'.cells j hj']⟩
    obtain ⟨g'', huseds, hsparesg'⟩ := huses g'
      ⟨Nat.le_trans hg.size hsparesg.size, fun j hj hj' => by
        rw [hsparesg.cells j (by omega) (.inr hj), hg.cells j (by omega) hj']⟩
    exact ⟨g'', (bind_of_ok hused).trans (bind_of_ok huseds), hsparesg.trans hsparesg' hsize hsize'⟩

theorem Promises.of_make {make make' : Eval σ α} {use : α → Eval σ β} {b : β} (hp : Promises make use b)
    (hmake : ∀ h a h', make h = (.ok a, h') → make' h = (.ok a, h')) : Promises make' use b := by
  intro h
  obtain ⟨a, h₁, ha, hrest⟩ := hp h
  exact ⟨a, h₁, hmake h a h₁ ha, hrest⟩

/-- A promise with something added to what is made and to what comes of it. -/
theorem Promises.bind_pure {make : Eval σ α} {use : α → Eval σ β} {b : β} (hp : Promises make use b) {f : α → γ}
    {use' : γ → Eval σ δ} {d : δ} (huse : ∀ a g g', use a g = (.ok b, g') → use' (f a) g = (.ok d, g')) :
    Promises (make >>= fun a => Pure.pure (f a)) use' d := by
  intro h
  obtain ⟨a, h₁, hmake, hadds, hused⟩ := hp h
  refine ⟨f a, h₁, bind_of_ok hmake, hadds, fun g hg => ?_⟩
  obtain ⟨g', hg', hspares⟩ := hused g hg
  exact ⟨g', huse a g g' hg', hspares⟩

/-- A container gets an identity, which nobody asks for. -/
theorem Promises.freshId {make : Eval σ α} {use : α → Eval σ β} {b : β} (hp : Promises make use b)
    {f : Nat → α → γ} {use' : γ → Eval σ δ} {d : δ}
    (huse : ∀ i a g g', use a g = (.ok b, g') → use' (f i a) g = (.ok d, g')) :
    Promises (make >>= fun a => Eval.freshId >>= fun i => Pure.pure (f i a)) use' d := by
  intro h
  obtain ⟨a, h₁, hmake, hadds, hused⟩ := hp h
  refine ⟨f h₁.rest.nextId a, Heap.useId h₁, bind_of_ok hmake, ⟨hadds.size, hadds.cells⟩, fun g hg => ?_⟩
  obtain ⟨g', hg', hspares⟩ := hused g ⟨hg.size, hg.cells⟩
  exact ⟨g', huse _ a g g' hg', hspares⟩

section Delay

variable {load : Loader σ} {scope : Scope} {d m : Nat} {e : Expr} {t : Tree}

/-- An expression that is delayed keeps its promise when its cell is demanded. -/
theorem Promises.delay (hp : Promises (eval load (d + 1) e scope) (deepWith (force load (d + 1)) m) t) :
    Promises (Eval.delay scope e) (fun x => force load (d + 1) x >>= deepWith (force load (d + 1)) m) t := by
  have hcell (hdelay : Eval.delay (σ := σ) scope e = (do return .cell (← Machine.alloc (.expr e scope)))) :
      Promises (Eval.delay scope e) (fun x => force load (d + 1) x >>= deepWith (force load (d + 1)) m) t := by
    intro h
    rw [hdelay]
    refine ⟨.cell h.cells.size, Heap.pushCell h (.expr e scope), rfl, ⟨by simp [Heap.pushCell], fun k hk =>
      Heap.getElem?_pushCell_of_lt hk _⟩, fun g hg => ?_⟩
    have hsize := hg.size
    have hpushed : (Heap.pushCell h (.expr e scope)).cells.size = h.cells.size + 1 := by simp [Heap.pushCell]
    rw [hpushed] at hsize
    have hwaits : g.cells[h.cells.size]? = some (.waiting (.expr e scope)) := by
      rw [hg.cells _ (Nat.le_refl _) (by omega), Heap.getElem?_pushCell_size]
    obtain ⟨v, g₁, heval, hadds, hdeep⟩ := hp (g.setCell h.cells.size (.busy (.expr e scope)))
    have hbusy : (g.setCell h.cells.size (.busy (.expr e scope))).cells.size = g.cells.size := by
      simp [Machine.setCell]
    rw [hbusy] at hdeep
    have hforce : force load (d + 1) (.cell h.cells.size) g =
        (.ok v, g₁.setCell h.cells.size (.done (.expr e scope) v)) := demand_waiting hwaits heval
    have hsize₁ := hadds.size
    rw [hbusy] at hsize₁
    have hother (k : Nat) (hk : h.cells.size ≠ k) (c : Cell Job Value) (g : Heap σ) :
        (g.setCell h.cells.size c).cells[k]? = g.cells[k]? := Heap.getElem?_setCell_ne g hk c
    obtain ⟨g₂, hdeep, hspares₂⟩ := hdeep (g₁.setCell h.cells.size (.done (.expr e scope) v))
      ⟨by simp [Machine.setCell], fun j hj _ => hother j (by omega) _ _⟩
    have hdone : (g₁.setCell h.cells.size (.done (.expr e scope) v)).cells.size = g₁.cells.size := by
      simp [Machine.setCell]
    have hsize₂ := hspares₂.size
    rw [hdone] at hsize₂
    refine ⟨g₂, (bind_of_ok hforce).trans hdeep, Nat.le_trans hsize₁ hsize₂, fun k hk hspared => ?_⟩
    rw [hpushed] at hspared
    rw [hspares₂.cells k (by omega) (.inl hk), hother k (by omega), hadds.cells k (by omega), hother k (by omega)]
  cases e with
  | literal c start =>
    intro h
    obtain ⟨v, h₁, heval, hadds, hdeep⟩ := hp h
    cases heval
    exact ⟨.constant c, h, rfl, hadds, hdeep⟩
  | lambda params body start =>
    intro h
    obtain ⟨v, h₁, heval, hadds, hdeep⟩ := hp h
    cases heval
    exact ⟨.closure ⟨h.rest.nextId, params, body, scope⟩, _, rfl, hadds, hdeep⟩
  | _ => exact hcell rfl

theorem Promises.list {es : List Expr} {ts : List Tree} (hall : List.Forall₂ (fun e t =>
      Promises (eval load (d + 1) e scope) (deepWith (force load (d + 1)) m) t) es ts) (start : Nat) :
    Promises (eval load (d + 1) (.list es start) scope) (deepWith (force load (d + 1)) (m + 1)) (.list ts) :=
  (Promises.mapList (hall.imp fun _ _ hp => hp.delay)).freshId fun _ _ _ _ hused => bind_of_ok hused

/-- Fields whose keys are distinct are delayed like items. -/
theorem delayFields_of_mapList {delay : Expr → Eval σ Slot} {done : Table Slot} {fs : List (String × Expr)}
    (hkeys : (Table.keys done ++ Table.keys fs).Nodup) {h h' : Heap σ} {xs : List (String × Slot)}
    (hxs : Eval.mapList (fun p => delay p.2 >>= fun x => Pure.pure (p.1, x)) fs h = (.ok xs, h')) :
    delayFields delay done fs h = (.ok (done ++ xs), h') := by
  induction fs generalizing done h xs with
  | nil =>
    cases hxs
    rw [List.append_nil]
    rfl
  | cons f fs ih =>
    obtain ⟨p, h₁, hp, hrest⟩ := bind_eq_ok hxs
    obtain ⟨x, h₂, hx, hpure⟩ := bind_eq_ok hp
    cases hpure
    obtain ⟨ys, h₃, hys, hpure⟩ := bind_eq_ok hrest
    cases hpure
    have hnew : f.1 ∉ Table.keys done := fun hmem => by
      rw [List.nodup_append] at hkeys
      exact hkeys.2.2 _ hmem _ (by simp [Table.keys]) rfl
    have hkeys' : (Table.keys (done ++ [(f.1, x)]) ++ Table.keys fs).Nodup := by
      simpa [Table.keys] using hkeys
    refine (bind_of_ok hx).trans ?_
    rw [Table.insert_of_not_mem hnew, ih hkeys' hys, List.append_assoc]
    rfl

theorem Promises.record {fs : List (String × Expr)} {ps : List (String × Tree)} (hkeys : (Table.keys ps).Nodup)
    (hall : List.Forall₂ (fun f p => f.1 = p.1 ∧
      Promises (eval load (d + 1) f.2 scope) (deepWith (force load (d + 1)) m) p.2) fs ps) (start : Nat) :
    Promises (eval load (d + 1) (.record fs start) scope) (deepWith (force load (d + 1)) (m + 1)) (.record ps) := by
  have hfields : List.Forall₂ (fun f p => Promises (Eval.delay scope f.2 >>= fun x => Pure.pure (f.1, x))
      (fun q => force load (d + 1) q.2 >>= fun v => deepWith (force load (d + 1)) m v >>= fun t =>
        Pure.pure (q.1, t)) p) fs ps := by
    refine hall.imp fun f p hfp => hfp.2.delay.bind_pure fun x g g' hused => ?_
    obtain ⟨v, g₁, hv, hdeep⟩ := bind_eq_ok hused
    refine (bind_of_ok hv).trans ((bind_of_ok hdeep).trans ?_)
    rw [hfp.1]
    rfl
  have hsame : Table.keys fs = Table.keys ps := by
    have hkeys₂ : List.Forall₂ Eq (Table.keys fs) (Table.keys ps) :=
      List.forall₂_map_left_iff.mpr (List.forall₂_map_right_iff.mpr (hall.imp fun _ _ hfp => hfp.1))
    rwa [List.forall₂_eq_eq_eq] at hkeys₂
  have hnodup : (Table.keys ([] : Table Slot) ++ Table.keys fs).Nodup := by
    rw [hsame]
    exact hkeys
  have hmade : Promises (delayFields (Eval.delay scope) [] fs) (Eval.mapList _) ps :=
    (Promises.mapList hfields).of_make fun _ _ _ => delayFields_of_mapList hnodup
  exact hmade.freshId fun _ _ _ _ hused => bind_of_ok hused

end Delay

/-! ## Expressions that yield data -/

/-- An expression that has a tree for its value if the depth is at least `n`: in any scope and any heap, and by
demands at any later time. -/
def YieldsBy (n : Nat) (e : Expr) (t : Tree) : Prop :=
  ∀ d ≥ n, ∀ m ≥ n, ∀ (σ : Type) (load : Loader σ) (scope : Scope),
    Promises (eval load (d + 1) e scope) (deepWith (force load (d + 1)) (m + 1)) t

/-- An expression that has a tree for its value. -/
def Yields (e : Expr) (t : Tree) : Prop := ∃ n, YieldsBy n e t

theorem YieldsBy.mono {n k : Nat} (hle : n ≤ k) {e : Expr} {t : Tree} (h : YieldsBy n e t) : YieldsBy k e t :=
  fun d hd m hm => h d (Nat.le_trans hle hd) m (Nat.le_trans hle hm)

/-- One number for several pairs, if a greater one is as good. -/
theorem exists_forall₂ {P : Nat → γ → δ → Prop} (hmono : ∀ {n k x y}, n ≤ k → P n x y → P k x y) {xs : List γ}
    {ys : List δ} (hall : List.Forall₂ (fun x y => ∃ n, P n x y) xs ys) : ∃ n, List.Forall₂ (P n) xs ys := by
  induction hall with
  | nil => exact ⟨0, .nil⟩
  | cons hx _ ih =>
    obtain ⟨n, hn⟩ := hx
    obtain ⟨k, hk⟩ := ih
    exact ⟨max n k, .cons (hmono (Nat.le_max_left _ _) hn) (hk.imp fun _ _ => hmono (Nat.le_max_right _ _))⟩

theorem yields_literal {c : Constant} {t : Tree} (ht : ∀ (σ : Type) (F : Slot → Eval σ Value) m h,
    deepWith F (m + 1) c.value h = (.ok t, h)) (start : Nat) : Yields (.literal c start) t :=
  ⟨0, fun _ _ _ _ _ _ _ => .pure fun _ => ht _ _ _ _⟩

theorem yields_negative (n start sign : Nat) :
    Yields (.unary .neg (.literal (.int n) start) sign) (.number (.int (-n))) := by
  refine ⟨1, fun d hd m _ σ load scope h => ?_⟩
  obtain ⟨d, rfl⟩ := Nat.exists_eq_add_one_of_ne_zero (Nat.ne_of_gt hd)
  exact ⟨.number (.int (-n)), Heap.useId h, rfl, ⟨Nat.le_refl _, fun _ _ => rfl⟩,
    fun g _ => ⟨g, rfl, .refl _ _ _⟩⟩

theorem yields_list {es : List Expr} {ts : List Tree} (hall : List.Forall₂ Yields es ts) (start : Nat) :
    Yields (.list es start) (.list ts) := by
  obtain ⟨n, hn⟩ := exists_forall₂ (P := YieldsBy) (fun hle => YieldsBy.mono hle) hall
  refine ⟨n + 1, fun d hd m hm σ load scope => ?_⟩
  obtain ⟨m, rfl⟩ := Nat.exists_eq_add_one_of_ne_zero (Nat.ne_of_gt (Nat.lt_of_lt_of_le (Nat.succ_pos n) hm))
  exact .list (hn.imp fun e t ht => ht d (by omega) m (by omega) σ load scope) start

theorem yields_record {fs : List (String × Expr)} {ps : List (String × Tree)} (hkeys : (Table.keys ps).Nodup)
    (hall : List.Forall₂ (fun f p => f.1 = p.1 ∧ Yields f.2 p.2) fs ps) (start : Nat) :
    Yields (.record fs start) (.record ps) := by
  obtain ⟨n, hn⟩ := exists_forall₂ (P := fun n (f : String × Expr) (p : String × Tree) => f.1 = p.1 ∧ YieldsBy n f.2 p.2)
    (fun hle h => ⟨h.1, h.2.mono hle⟩) (hall.imp fun f p ⟨hkey, n, hn⟩ => ⟨n, hkey, hn⟩)
  refine ⟨n + 1, fun d hd m hm σ load scope => ?_⟩
  obtain ⟨m, rfl⟩ := Nat.exists_eq_add_one_of_ne_zero (Nat.ne_of_gt (Nat.lt_of_lt_of_le (Nat.succ_pos n) hm))
  exact .record hkeys (hn.imp fun f p ht => ⟨ht.1, ht.2 d (by omega) m (by omega) σ load scope⟩) start

end Eval

/-! ## Data -/

namespace Tree

open Eval Grammar Scan

/-- What is written of data spells an expression that yields it. -/
theorem spelled_written {t : Tree} (ht : t.Readable) :
    Shown t.write ∧ Spelled .expr t.write fun e => Yields e t := by
  induction ht with
  | nil =>
    refine ⟨⟨'n', _, rfl, by decide⟩, (spelled_word (k := .nil) (by decide) (List.all_eq_true.mp rfl) rfl).imp ?_⟩
    rintro _ ⟨start, rfl⟩
    exact yields_literal (fun _ _ _ _ => rfl) start
  | flag b =>
    cases b with
    | true =>
      refine ⟨⟨'t', _, rfl, by decide⟩, (spelled_word (k := .flag true) (by decide) (List.all_eq_true.mp rfl) rfl).imp ?_⟩
      rintro _ ⟨start, rfl⟩
      exact yields_literal (fun _ _ _ _ => rfl) start
    | false =>
      refine ⟨⟨'f', _, rfl, by decide⟩, (spelled_word (k := .flag false) (by decide) (List.all_eq_true.mp rfl) rfl).imp ?_⟩
      rintro _ ⟨start, rfl⟩
      exact yields_literal (fun _ _ _ _ => rfl) start
  | @int n hn =>
    rw [write, Number.text_int hn, Option.getD_some, String.toList_ofList]
    by_cases hneg : n < 0
    · rw [if_pos hneg]
      refine ⟨⟨'-', _, rfl, by decide⟩, (spelled_negative hn).imp ?_⟩
      rintro _ ⟨start, sign, rfl⟩
      have hvalue : n = -(n.natAbs : Int) := by omega
      rw [hvalue, Int.natAbs_neg, Int.natAbs_natCast]
      exact yields_negative _ start sign
    · rw [if_neg hneg]
      refine ⟨?_, (spelled_nat hn).imp ?_⟩
      · obtain ⟨c, cs, hcs⟩ := List.exists_cons_of_ne_nil (Nat.toDigits_ne_nil (n := n.natAbs) (b := 10))
        have hc : Numeral.isDigit c = true := by
          rw [isDigit_eq]
          exact Nat.isDigit_of_mem_toDigits (by omega) (by omega) (hcs ▸ List.mem_cons_self ..)
        exact ⟨c, cs, hcs, (isDigit_cases hc).1⟩
      · rintro _ ⟨start, rfl⟩
        have hvalue : n = (n.natAbs : Int) := by omega
        rw [hvalue, Int.natAbs_natCast]
        exact yields_literal (fun _ _ _ _ => rfl) start
  | @text s hs =>
    refine ⟨⟨'"', _, rfl, by decide⟩, (spelled_text hs).imp ?_⟩
    rintro _ ⟨start, rfl⟩
    exact yields_literal (fun _ _ _ _ => rfl) start
  | @list ts _ ih =>
    rw [write, writeItems_eq_map]
    refine ⟨⟨'[', _, rfl, by decide⟩, (spelled_list (spelled_items ih)).imp ?_⟩
    rintro _ ⟨es, start, rfl, hall⟩
    exact yields_list hall.flip start
  | @record fs hkeys hnames _ ih =>
    rw [write, writeFields_eq_map]
    have hfields : ∀ p ∈ fs, Shown (p.1.toList ++ ':' :: ' ' :: p.2.write) ∧
        Spelled .field (p.1.toList ++ ':' :: ' ' :: p.2.write) fun m => m.1 = p.1 ∧ Yields m.2 p.2 := by
      intro p hp
      obtain ⟨c, cs, hcs, hc, -, -⟩ := (hnames p hp).word
      exact ⟨⟨c, _, by rw [hcs]; rfl, (startsWord_cases hc).1⟩,
        spelled_field (hnames p hp) (ih p hp).1 (ih p hp).2⟩
    refine ⟨⟨'{', _, rfl, by decide⟩, (spelled_record (spelled_items hfields)).imp ?_⟩
    rintro _ ⟨es, start, rfl, hall⟩
    exact yields_record hkeys hall.flip start

theorem equalItems_self {ts : List Tree} (hts : ∀ t ∈ ts, t.equal t = true) : equalItems ts ts = true := by
  induction ts with
  | nil => rfl
  | cons t ts ih =>
    rw [equalItems, hts t (by simp), Bool.or_true, ih fun u hu => hts u (by simp [hu])]
    rfl

theorem equalFields_of_subset {fs gs : List (String × Tree)} (hkeys : (Table.keys gs).Nodup) (hsubset : fs ⊆ gs)
    (hfs : ∀ p ∈ fs, p.2.equal p.2 = true) : equalFields fs gs = true := by
  induction fs with
  | nil => rfl
  | cons p fs ih =>
    obtain ⟨hp, hrest⟩ := List.cons_subset.mp hsubset
    have hlookup : gs.lookup p.1 = some p.2 := Table.find?_of_mem hkeys hp
    rw [equalFields, hlookup]
    simp only [hfs p (by simp), Bool.or_true, Bool.true_and]
    exact ih hrest fun q hq => hfs q (by simp [hq])

/-- Data equals itself. -/
theorem Readable.equal_self {t : Tree} (ht : t.Readable) : t.equal t = true := by
  induction ht with
  | nil => rfl
  | flag b => cases b <;> rfl
  | int hn => simp [equal, number?, Number.equal, Number.order]
  | text hs => simp [equal]
  | list _ ih => exact equalItems_self ih
  | record hkeys _ _ ih =>
    rw [equal, equalFields_of_subset hkeys (List.Subset.refl _) ih]
    simp

end Tree

namespace Eval

open Grammar Scan

/-- What is displayed of data reads back. A value other than a text alone that is evaluated all the way down to
data, with no container inside itself, is displayed by a text that is read without declarations. The body that
is read has the same data for its value, in any scope of any heap if the depth is enough: an equal tree, with its
keys in the same order. -/
theorem displayed_reads_back {σ : Type} {force : Slot → Eval σ Value} {depth : Nat} {v : Value} {t : Tree}
    {h h' : Heap σ} (hunfolds : unfoldWith force depth [] v h = (.ok t, h')) (ht : t.Readable)
    (hv : ∀ s, v ≠ .text s) :
    deepWith force depth v h = (.ok t, h') ∧ t.equal t = true ∧
    ∃ text e, displayWith force depth v h = (.ok text, h') ∧
      Reading.ofText text = ⟨.accepted ⟨[], [], some e⟩, "", some ""⟩ ∧
      ∃ n, ∀ d ≥ n, ∀ (τ : Type) (load : Loader τ) (scope : Scope) (g : Heap τ), ∃ w g₁ g₂,
        eval load d e scope g = (.ok w, g₁) ∧ deepWith (Eval.force load d) d w g₁ = (.ok t, g₂) := by
  obtain ⟨l', d, hscans, hpreferred, hlawful, n, hyields⟩ := (Tree.spelled_written ht).2 .start rfl
  refine ⟨deepWith_of_unfoldWith hunfolds, ht.equal_self, String.ofList t.write, d.meaning,
    displayWith_writes hunfolds ht hv, ?_, n + 1, fun depth hdepth τ load scope g => ?_⟩
  · have hscan : scan (String.ofList t.write).toList = ⟨d.yield, .ended⟩ := by
      have hends := hscans [] .nil
      rw [List.append_nil] at hends
      rw [String.toList_ofList, scan, hends]
      simp [Result.after, scanFrom]
    have hbuild : build d.yield = some (.plain (.bodyOnly d)) := (build_eq_some_iff _ _).mpr ⟨rfl, hpreferred⟩
    obtain ⟨s, hfeed, hfinish⟩ := (accepts_iff d.yield t.write.length _).mpr ⟨_, hbuild, hlawful, rfl⟩
    rw [← String.toList_ofList (l := t.write)] at hfinish
    simp only [Reading.ofText, hscan, hfeed, hfinish]
    rfl
  · obtain ⟨depth, rfl⟩ := Nat.exists_eq_add_one_of_ne_zero (Nat.ne_of_gt (Nat.lt_of_lt_of_le n.succ_pos hdepth))
    obtain ⟨w, g₁, heval, -, hdeep⟩ := hyields depth (by omega) depth (by omega) τ load scope g
    obtain ⟨g₂, hdeep, -⟩ := hdeep g₁ ⟨Nat.le_refl _, fun _ _ _ => rfl⟩
    exact ⟨w, g₁, g₂, heval, hdeep⟩

/-- A list with a part that waits, and a record and a text inside it. -/
theorem displayed_reads_back_nested :
    let heap : Heap Unit := ⟨#[.waiting (.expr (.unary .neg (.literal (.int 1) 1) 0) ⟨"m", []⟩),
      .done (.expr (.record [("k", .list [] 4)] 0) ⟨"m", []⟩) (.record 1 [("k", .cell 2)]),
      .done (.expr (.list [] 4) ⟨"m", []⟩) (.list 2 [])], ⟨#[], 3, ()⟩⟩
    let force := Eval.force (fun _ _ _ => Computation.exhaust) 2
    let v : Value := .list 0 [.constant (.int 7), .cell 0, .cell 1, .constant (.text "a\n")]
    let t : Tree := .list [.number (.int 7), .number (.int (-1)), .record [("k", .list [])], .text "a\n"]
    t.Readable ∧ (unfoldWith force 3 [] v heap).1 = .ok t ∧
      ∃ text e, (displayWith force 3 v heap).1 = .ok text ∧
        Reading.ofText text = ⟨.accepted ⟨[], [], some e⟩, "", some ""⟩ ∧
        ∃ d w g₁ g₂, eval (fun _ _ _ => Computation.exhaust) d e ⟨"m", []⟩ heap = (.ok w, g₁) ∧
          deepWith (Eval.force (fun _ _ _ => Computation.exhaust) d) d w g₁ = (.ok t, g₂) := by
  intro heap force v t
  have ht : t.Readable := by
    refine .list fun u hu => ?_
    simp only [List.mem_cons, List.not_mem_nil, or_false] at hu
    rcases hu with rfl | rfl | rfl | rfl
    · exact .int (by decide)
    · exact .int (by decide)
    · refine .record (by decide) ?_ ?_
      · rintro p hp
        cases List.mem_singleton.mp hp
        rfl
      · rintro p hp
        cases List.mem_singleton.mp hp
        exact .list (by simp)
    · exact .text (by decide)
  have hunfolds : unfoldWith force 3 [] v heap = (.ok t, (unfoldWith force 3 [] v heap).2) := rfl
  obtain ⟨-, -, text, e, htext, hreading, n, hn⟩ := displayed_reads_back hunfolds ht nofun
  exact ⟨ht, rfl, text, e, congrArg Prod.fst htext, hreading, n, hn n (Nat.le_refl n) _ _ _ _⟩

end Eval

end LazyModules
