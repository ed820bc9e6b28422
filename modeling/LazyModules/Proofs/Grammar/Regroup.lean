import LazyModules.Proofs.Grammar.Derivation

/-!
# Regrouping

Every derivation can be regrouped into the one that the precedences choose, with the same tokens.

* `graft` puts an operator and one more operand at the right end of an expression, as deep as the
  precedences ask for; `attach` does that with all the operands of an expression.
* `regroup` does it everywhere. `yield_regroup`, `preferred_regroup`, `lawful_regroup`.
-/
namespace LazyModules.Grammar.Derivation

open Parse (Operator)

/-- The expression `l` with the operator `op` at `i` and the operand `x` after it. -/
def graft (op : Operator) (i : Nat) (x : Derivation .expr) : Derivation .expr → Derivation .expr
  | .operand u => .binary (.operand u) op i x
  | .binary a o j b =>
    if b.isOpen || o.level < op.level then .binary a o j (graft op i x b)
    else .binary (.binary a o j b) op i x
  | .conditional h t j y k n => .conditional h t j y k (graft op i x n)
  | .lambdaOne n j e => .lambdaOne n j (graft op i x e)
  | .lambdaParen p j e => .lambdaParen p j (graft op i x e)
  | .lambdaNone h j k e => .lambdaNone h j k (graft op i x e)
  | .lambdaMany h n j ns k m e => .lambdaMany h n j ns k m (graft op i x e)

/-- The expression `l` with the operator `op` at `i` and the operands and operators of another after it. -/
def attach (l : Derivation .expr) (op : Operator) (i : Nat) : Derivation .expr → Derivation .expr
  | .binary a o j b => attach (attach l op i a) o j b
  | r => graft op i r l

/-- The derivation of the same tokens that the precedences choose. -/
def regroup : {p : Phrase} → Derivation p → Derivation p
  | _, .plain d => .plain d.regroup
  | _, .importing i d => .importing i d.regroup
  | _, .directive n s i => .directive n s i
  | _, .nothing => .nothing
  | _, .bodyOnly e => .bodyOnly e.regroup
  | _, .declarationsOnly ds => .declarationsOnly ds.regroup
  | _, .declarationsBody ds e => .declarationsBody ds.regroup e.regroup
  | _, .firstDeclaration d => .firstDeclaration d.regroup
  | _, .moreDeclarations ds d => .moreDeclarations ds.regroup d.regroup
  | _, .declaration n i e => .declaration n i e.regroup
  | _, .operand u => .operand u.regroup
  | _, .binary l op i r => attach l.regroup op i r.regroup
  | _, .conditional i t j y k n => .conditional i t.regroup j y.regroup k n.regroup
  | _, .lambdaOne n i e => .lambdaOne n i e.regroup
  | _, .lambdaParen p i e => .lambdaParen p.regroup i e.regroup
  | _, .lambdaNone i j k e => .lambdaNone i j k e.regroup
  | _, .lambdaMany i n j ns k l e => .lambdaMany i n j ns k l e.regroup
  | _, .unsigned p => .unsigned p.regroup
  | _, .signed op i u => .signed op i u.regroup
  | _, .primary p => .primary p.regroup
  | _, .call f i args j => .call f.regroup i args.regroup j
  | _, .member p i n => .member p.regroup i n
  | _, .subscript p i e j => .subscript p.regroup i e.regroup j
  | _, .literal c i => .literal c i
  | _, .string s i => .string s i
  | _, .lookup n => .lookup n
  | _, .grouped p => .grouped p.regroup
  | _, .list i es j => .list i es.regroup j
  | _, .record i fs j => .record i fs.regroup j
  | _, .parens i e j => .parens i e.regroup j
  | _, .field n i e => .field n i e.regroup
  | _, .name s i => .name s i
  | _, .none => .none
  | _, .exactly s => .exactly s.regroup
  | _, .spare s i => .spare s.regroup i
  | _, .first d => .first d.regroup
  | _, .more s i d => .more s.regroup i d.regroup

/-! ## The tokens stay -/

theorem yield_graft (op : Operator) (i : Nat) (x l : Derivation .expr) :
    (graft op i x l).yield = l.yield ++ mark op.mark i :: x.yield := by
  fun_induction graft op i x l <;> simp_all [yield]

theorem yield_attach (l : Derivation .expr) (op : Operator) (i : Nat) (r : Derivation .expr) :
    (attach l op i r).yield = l.yield ++ mark op.mark i :: r.yield := by
  fun_induction attach l op i r with
  | case1 l op i a o j b ih₁ ih₂ => simp [ih₁, ih₂, yield]
  | case2 l op i r h => exact yield_graft op i r l

theorem yield_regroup {p : Phrase} (d : Derivation p) : d.regroup.yield = d.yield := by
  induction d <;> simp_all [regroup, yield, yield_attach]

/-! ## The operands are those that the precedences give -/

theorem level_le (op : Operator) : op.level ≤ 5 := by
  cases op with
  | binary op => cases op <;> simp [Operator.level]
  | connective op => cases op <;> simp [Operator.level]

/-- A graft into an open expression happens below its topmost operator. -/
theorem level_graft_open (op : Operator) (i : Nat) (x l : Derivation .expr) (h : l.isOpen = true) :
    (graft op i x l).level = l.level := by
  cases l with
  | binary a o j b =>
    simp only [isOpen] at h
    simp [graft, h, level]
  | operand u => simp [isOpen] at h
  | _ => simp [graft, level]

/-- A graft into an expression that is not open leaves the looser of two operators on top. -/
theorem level_graft (op : Operator) (i : Nat) (x l : Derivation .expr) (h : l.isOpen = false) :
    (graft op i x l).level = min l.level op.level := by
  have hop := level_le op
  cases l with
  | binary a o j b =>
    simp only [isOpen] at h
    by_cases ho : o.level < op.level
    · simp [graft, h, ho, level]; omega
    · simp [graft, h, ho, level]; omega
  | operand u => simp [graft, level]; omega
  | _ => simp [isOpen] at h

theorem preferred_graft (op : Operator) (i : Nat) (x l : Derivation .expr) (hx : x.Preferred)
    (hl : l.Preferred) (top : op.level < x.level) : (graft op i x l).Preferred := by
  fun_induction graft op i x l with
  | case1 u =>
    have := level_le op
    exact ⟨⟨rfl, by simp only [level]; omega, top⟩, hl, hx⟩
  | case2 a o j b h ih =>
    obtain ⟨⟨ha, hao, hob⟩, pa, pb⟩ := hl
    refine ⟨⟨ha, hao, ?_⟩, pa, ih pb⟩
    cases hb : b.isOpen with
    | true => rw [level_graft_open op i x b hb]; exact hob
    | false =>
      rw [level_graft op i x b hb]
      simp only [hb, Bool.false_or, decide_eq_true_eq] at h
      omega
  | case3 a o j b h =>
    simp only [Bool.or_eq_true, decide_eq_true_eq, not_or, Bool.not_eq_true, Nat.not_lt] at h
    exact ⟨⟨h.1, h.2, top⟩, hl, hx⟩
  | case4 h t j y k n ih => exact ⟨trivial, hl.2.1, hl.2.2.1, ih hl.2.2.2⟩
  | case5 n j e ih => exact ⟨trivial, ih hl.2⟩
  | case6 p j e ih => exact ⟨trivial, hl.2.1, ih hl.2.2⟩
  | case7 h j k e ih => exact ⟨trivial, ih hl.2⟩
  | case8 h n j ns k m e ih => exact ⟨trivial, ih hl.2⟩

theorem preferred_attach (l : Derivation .expr) (op : Operator) (i : Nat) (r : Derivation .expr)
    (hl : l.Preferred) (hr : r.Preferred) : (attach l op i r).Preferred := by
  fun_induction attach l op i r with
  | case1 l op i a o j b ih₁ ih₂ => exact ih₂ (ih₁ hl hr.2.1) hr.2.2
  | case2 l op i r h =>
    have top : r.level = 6 := by
      cases r with
      | binary a o j b => exact absurd rfl (h a o j b)
      | _ => rfl
    have := level_le op
    exact preferred_graft op i r l hr hl (by omega)

theorem preferred_regroup {p : Phrase} (d : Derivation p) : d.regroup.Preferred := by
  induction d with
  | binary l op i r ihl ihr => exact preferred_attach _ _ _ _ ihl ihr
  | _ => simp_all [regroup, Everywhere, IsGrouped]

/-! ## The parameters stay -/

/-- Whether a derivation derives a name, perhaps in parentheses, and nothing else. -/
def isName : {p : Phrase} → Derivation p → Bool
  | _, .operand u => u.isName
  | _, .unsigned p => p.isName
  | _, .primary p => p.isName
  | _, .lookup _ => true
  | _, .grouped p => p.isName
  | _, .parens _ e _ => e.isName
  | _, _ => false

/-- The phrases that stand for an expression have a lookup for their meaning exactly if they are a name. -/
def IsNameSpec : {p : Phrase} → Derivation p → Prop
  | .expr, d | .unary, d | .suffixed, d | .primary, d | .parenthesized, d =>
    Option.isSome (Expr.lookup? d.meaning) = d.isName
  | _, _ => True

theorem lookup?_build (op : Operator) (l r : Expr) (i : Nat) : (op.build l r i).lookup? = Option.none := by
  cases op <;> rfl

theorem isName_spec {p : Phrase} (d : Derivation p) : IsNameSpec d := by
  induction d with
  | binary l op i r _ _ => simp [IsNameSpec, meaning, isName, lookup?_build]
  | _ => simp_all [IsNameSpec, meaning, isName, Expr.lookup?]

theorem hasLoneName_lambdaParen (p : Derivation .parenthesized) (i : Nat) (e : Derivation .expr) :
    HasLoneName (.lambdaParen p i e) ↔ p.isName = true := by
  have h : Option.isSome (Expr.lookup? p.meaning) = p.isName := isName_spec p
  simp [HasLoneName, ← h]

theorem isName_attach (l : Derivation .expr) (op : Operator) (i : Nat) (r : Derivation .expr) :
    (attach l op i r).isName = false := by
  fun_induction attach l op i r with
  | case1 l op i a o j b ih₁ ih₂ => exact ih₂
  | case2 l op i r h => cases l <;> simp [graft, isName]; split <;> rfl

theorem isName_regroup {p : Phrase} (d : Derivation p) : d.regroup.isName = d.isName := by
  induction d with
  | binary l op i r _ _ => exact isName_attach _ _ _ _
  | _ => simp_all [regroup, isName]

theorem lawful_graft (op : Operator) (i : Nat) (x l : Derivation .expr) (hx : x.Lawful)
    (hl : l.Lawful) : (graft op i x l).Lawful := by
  fun_induction graft op i x l <;> simp_all [Everywhere, HasLoneName]

theorem lawful_attach (l : Derivation .expr) (op : Operator) (i : Nat) (r : Derivation .expr)
    (hl : l.Lawful) (hr : r.Lawful) : (attach l op i r).Lawful := by
  fun_induction attach l op i r with
  | case1 l op i a o j b ih₁ ih₂ => exact ih₂ (ih₁ hl hr.2.1) hr.2.2
  | case2 l op i r h => exact lawful_graft op i r l hr hl

theorem lawful_regroup {p : Phrase} (d : Derivation p) (h : d.Lawful) : d.regroup.Lawful := by
  induction d with
  | binary l op i r ihl ihr => exact lawful_attach _ _ _ _ (ihl h.2.1) (ihr h.2.2)
  | lambdaParen p i e ihp ihe =>
    refine ⟨?_, ihp h.2.1, ihe h.2.2⟩
    rw [hasLoneName_lambdaParen, isName_regroup, ← hasLoneName_lambdaParen p i e]
    exact h.1
  | _ => simp_all [regroup, Everywhere, HasLoneName]

end LazyModules.Grammar.Derivation
