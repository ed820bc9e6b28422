import LazyModules.Proofs.Scoping.Offsets

/-!
# Where reading stops

A text that is refused is refused at the first place where it could not go on: what stands before that place
is the front of some module, and with what stands there it is the front of none. The one exception is made
by parentheses before an arrow, which are looked at only when the function is complete.

The builder is what makes this plain. It never takes a token that leads nowhere, since every state that it
gets into can be brought to the end of a module (`completable`), and it takes whatever some derivation has
next, since it finds all derivations. So the fronts of modules are the tokens that it takes
(`viable_iff_run`).
-/
namespace LazyModules

namespace Grammar

/-! ## Every state can be completed -/

/-- The builder can get from a state to the end of a module. -/
def Completable (s : State) : Prop := ∃ more s' r, Reaches s more s' ∧ s'.finish = some r

section

variable {s s' : State}

theorem Completable.of_reaches {ts : List Token} (h : Reaches s ts s') (hs' : Completable s') :
    Completable s := by
  obtain ⟨more, s'', r, hreaches, hfinish⟩ := hs'
  exact ⟨ts ++ more, s'', r, h.trans hreaches, hfinish⟩

/-- A literal is taken wherever an operand can stand. -/
theorem reaches_nil {signs : Signs} (hs : s.focus = .operand signs) :
    Reaches s [⟨.literal .nil, 0⟩] (s.atEnd s.stack signs (.primary (.literal .nil 0))) :=
  Reaches.step (by simp [State.step, State.begin, hs])

theorem length_closeExpr_le (e : Derivation .expr) (fs : List Pending) :
    (closeExpr e fs).2.length ≤ fs.length := by
  fun_induction closeExpr e fs with
  | case1 e l op i fs ih | case2 e i t j y k fs ih | case3 e h i fs ih =>
    rw [List.length_cons]
    omega
  | case4 => exact Nat.le_refl _

/-- Nothing is left to be completed. -/
theorem closeExpr_closeExpr (e : Derivation .expr) (fs : List Pending) :
    closeExpr (closeExpr e fs).1 (closeExpr e fs).2 = closeExpr e fs := by
  fun_induction closeExpr e fs with
  | case1 e l op i fs ih | case2 e i t j y k fs ih | case3 e h i fs ih => exact ih
  | case4 e fs h₁ h₂ h₃ =>
    rw [closeExpr]
    · exact h₁
    · exact h₂
    · exact h₃

/-- What is around an expression that is complete does not end with it. -/
theorem closing_stops {signs : Signs} {p : Derivation .suffixed} {gs fs : List Pending} {f : Pending}
    {e : Derivation .expr} (hc : closing signs p gs = (e, f :: fs)) :
    (∀ l op i, f ≠ .operator l op i) ∧ (∀ i t j y k, f ≠ .no i t j y k) ∧ ∀ h i, f ≠ .lambda h i := by
  have hfixed := closeExpr_closeExpr (.operand (sign signs p)) gs
  rw [← closing, hc] at hfixed
  have hshorter (e' : Derivation .expr) : closeExpr e' fs ≠ (e, f :: fs) := by
    intro heq
    have hlength := length_closeExpr_le e' fs
    rw [heq, List.length_cons] at hlength
    omega
  refine ⟨?_, ?_, ?_⟩
  all_goals
    intros
    rintro rfl
    exact hshorter _ hfixed

theorem length_closing_le (signs : Signs) (p : Derivation .suffixed) (fs : List Pending) :
    (closing signs p fs).2.length ≤ fs.length :=
  length_closeExpr_le _ fs

theorem finish_of_closing (s : State) {gs : List Pending} {signs : Signs} {p : Derivation .suffixed}
    {e : Derivation .expr} (hc : closing signs p gs = (e, [])) : ∃ r, (s.atEnd gs signs p).finish = some r := by
  cases hst : s.statement <;> simp [State.finish, hc, hst]

/-- A state after an operand. What is around the expression that ends there is closed from the inside. -/
theorem completable_atEnd (s : State) (gs : List Pending) (signs : Signs) (p : Derivation .suffixed) :
    Completable (s.atEnd gs signs p) := by
  induction hn : (closing signs p gs).2.length using Nat.strongRecOn generalizing gs signs p with
  | ind n ih =>
    subst hn
    have hinner (fs : List Pending) (sg : Signs) (q : Derivation .suffixed)
        (hlt : fs.length < (closing signs p gs).2.length) : Completable (s.atEnd fs sg q) :=
      ih _ (Nat.lt_of_le_of_lt (length_closing_le sg q fs) hlt) fs sg q rfl
    -- the part after `else` closes together with the conditional
    have hno (fs : List Pending) (i j k : Nat) (t y : Derivation .expr)
        (hlt : fs.length < (closing signs p gs).2.length) : Completable (s.atStart (.no i t j y k :: fs)) :=
      .of_reaches (reaches_nil rfl)
        (ih _ (Nat.lt_of_le_of_lt (length_closeExpr_le (.conditional i t j y k _) fs) hlt) _ _ _ rfl)
    have hyes (fs : List Pending) (i j : Nat) (t : Derivation .expr)
        (hlt : fs.length < (closing signs p gs).2.length) : Completable (s.atStart (.yes i t j :: fs)) :=
      .of_reaches (reaches_nil rfl) (.of_reaches (reaches_else rfl 0) (hno fs i j 0 t _ hlt))
    match hc : closing signs p gs with
    | (e, []) =>
      obtain ⟨r, hr⟩ := finish_of_closing s hc
      exact ⟨[], _, r, .refl _, hr⟩
    | (e, f :: fs) =>
      have hlt : fs.length < (closing signs p gs).2.length := by
        rw [hc]
        exact Nat.lt_succ_self _
      obtain ⟨hoperator, helse, hlambda⟩ := closing_stops hc
      cases f with
      | operator l op i => exact absurd rfl (hoperator l op i)
      | no i t j y k => exact absurd rfl (helse i t j y k)
      | lambda h i => exact absurd rfl (hlambda h i)
      | test i => exact .of_reaches (reaches_then hc 0) (hyes fs i 0 e hlt)
      | yes i t j => exact .of_reaches (reaches_else hc 0) (hno fs i j 0 t e hlt)
      | group sg i => exact .of_reaches (reaches_group hc 0) (hinner fs _ _ hlt)
      | subscript sg q i => exact .of_reaches (reaches_subscript hc 0) (hinner fs _ _ hlt)
      | field sg i done n j => exact .of_reaches (reaches_brace hc 0) (hinner fs _ _ hlt)
      | sequence o done =>
        refine .of_reaches (reaches_closer hc 0) ?_
        cases o with
        | args sg fn i => exact hinner fs _ _ hlt
        | list sg i => exact hinner fs _ _ hlt

theorem completable_of_operand {signs : Signs} (hs : s.focus = .operand signs) : Completable s :=
  .of_reaches (reaches_nil hs) (completable_atEnd s s.stack signs _)

/-- Every state can be completed. -/
theorem completable (s : State) : Completable s := by
  have hstep {x : Lexeme} {s' : State} (h : (s.step x 0).map Prod.fst = some s') (hs' : Completable s') :
      Completable s := .of_reaches (.step h) hs'
  obtain ⟨imports, declarations, statement, stack, focus⟩ := s
  have hend (signs : Signs) (p : Derivation .suffixed) :
      Completable ⟨imports, declarations, statement, stack, .complete signs p⟩ :=
    completable_atEnd ⟨imports, declarations, statement, stack, .operand []⟩ stack signs p
  have hlambda (h : Head) : Completable ⟨imports, declarations, statement, .lambda h 0 :: stack, .operand []⟩ :=
    completable_of_operand rfl
  have harrow (ps : Params) : Completable ⟨imports, declarations, statement, stack, .arrow ps⟩ :=
    .of_reaches (.step (x := .mark .arrow) (i := 0) rfl) (hlambda (.params ps))
  have hnamed (i : Nat) (n : Derivation .name) (j : Nat) (ns : Derivation (.some .name)) :
      Completable ⟨imports, declarations, statement, stack, .paramNamed i n j ns⟩ :=
    .of_reaches (.step (x := .mark .closeParen) (i := 0) rfl) (harrow _)
  cases focus with
  | operand signs => exact completable_of_operand rfl
  | complete signs p => exact hend signs p
  | afterDot signs p i => exact hstep (x := .name "") rfl (hend signs _)
  | param i n j more => exact hstep (x := .name "") rfl (hnamed i n j _)
  | paramNamed i n j ns => exact hnamed i n j ns
  | arrow ps => exact harrow ps
  | fieldName signs i done => exact hstep (x := .mark .closeBrace) rfl (hend signs _)
  | fieldColon signs i done n => exact hstep (x := .mark .colon) rfl (completable_of_operand rfl)

end

/-! ## The fronts of modules -/

/-- Tokens with which the tokens of some module begin. -/
def Viable (ts : List Token) : Prop := ∃ (more : List Token) (d : Derivation .module), d.yield = ts ++ more

theorem run_append (s : State) (ts us : List Token) : s.run (ts ++ us) = (s.run ts).bind (·.run us) := by
  induction ts generalizing s with
  | nil => rfl
  | cons t ts ih =>
    rw [List.cons_append, State.run, State.run, Option.bind_assoc]
    exact congrArg _ (funext fun r => ih r.1)

/-- The builder ends with a derivation of the tokens that it took. -/
theorem derivable_iff_build (ts : List Token) :
    (∃ d : Derivation .module, d.yield = ts) ↔ ∃ d, build ts = some d := by
  constructor
  · rintro ⟨d, rfl⟩
    have hbuild := build_yield d.regroup (Derivation.preferred_regroup d)
    rw [Derivation.yield_regroup] at hbuild
    exact ⟨_, hbuild⟩
  · rintro ⟨d, hd⟩
    exact ⟨d, (build_sound hd).1⟩

/-- The fronts of modules are what the builder takes. -/
theorem viable_iff_run (ts : List Token) : Viable ts ↔ ∃ s, State.start.run ts = some s := by
  constructor
  · rintro ⟨more, d, hd⟩
    obtain ⟨d', hbuild⟩ := (derivable_iff_build _).mp ⟨d, hd⟩
    obtain ⟨s', slip, hrun, -⟩ := build_eq_some hbuild
    rw [run_append] at hrun
    obtain ⟨s, hs, -⟩ := Option.bind_eq_some_iff.mp hrun
    exact ⟨s, hs⟩
  · rintro ⟨s, hs⟩
    obtain ⟨more, s', r, hmore, hfinish⟩ := completable s
    have hbuild : build (ts ++ more) = some r.1 := by
      rw [build, run_append, hs, Option.bind_some, show s.run more = some s' from hmore, Option.bind_some,
        hfinish, Option.map_some]
    exact ⟨more, r.1, (build_sound hbuild).1⟩

/-! ## The machine -/

end Grammar

namespace Parse

/-- Why the machine refuses one of some tokens, if it does. -/
def State.refusal? (s : State) : List Token → Option Refusal
  | [] => none
  | t :: ts =>
    match { s with settled := s.settled <|> some t.start }.step t.lexeme t.start with
    | .ok s => s.refusal? ts
    | .error r => some r

/-- The first arrow with no parameter list before it, in an expression that is complete at the end. -/
def State.lastArrow? (s : State) : Option Nat :=
  match s.focus with
  | .complete e _ =>
    match closePhrase none e s.stack with
    | ⟨_, [], misplaced⟩ => misplaced
    | _ => none
  | _ => none

end Parse

/-- Whether the reading of a text stops on account of parentheses before an arrow. -/
def Reading.stopsAtArrow (text : String) : Bool :=
  let scanned := Scan.scan text.toList
  match Parse.State.start.refusal? scanned.tokens, Parse.State.start.feedAll scanned.tokens, scanned.stop with
  | some (.misplacedArrow _), _, _ => true
  | none, .ok s, .ended => s.lastArrow?.isSome
  | _, _, _ => false

namespace Grammar

/-- How far the machine gets with tokens: to their end, to one that cannot follow, or to one that completes
a function with no parameter list. -/
theorem feedAll_cases (s : State) (ts : List Token) (settled : Option Nat) :
    (∃ s' settled', s.run ts = some s' ∧ (s.image settled).feedAll ts = .ok (s'.image settled') ∧
      (s.image settled).refusal? ts = none) ∨
    (∃ before t after s' settled', ts = before ++ t :: after ∧ s.run before = some s' ∧
      s'.step t.lexeme t.start = none ∧ (s.image settled).feedAll ts = .error ⟨t.start, settled'⟩) ∨
    ∃ i, (s.image settled).refusal? ts = some (.misplacedArrow i) := by
  induction ts generalizing s settled with
  | nil => exact .inl ⟨s, settled, rfl, rfl, rfl⟩
  | cons t ts ih =>
    have hagrees := step_agrees s t.lexeme t.start (settled <|> some t.start)
    have himage : { s.image settled with settled := (s.image settled).settled <|> some t.start } =
        s.image (settled <|> some t.start) := rfl
    rcases hstep : s.step t.lexeme t.start with _ | ⟨u, _ | i⟩
    · simp only [hstep, Agrees] at hagrees
      refine .inr (.inl ⟨[], t, ts, s, settled <|> some t.start, rfl, rfl, hstep, ?_⟩)
      simp only [Parse.State.feedAll, Parse.State.feed, himage, hagrees]
      rfl
    · simp only [hstep, Agrees] at hagrees
      obtain ⟨settled', hagrees⟩ := hagrees
      have hrefusal : (s.image settled).refusal? (t :: ts) = (u.image settled').refusal? ts := by
        simp only [Parse.State.refusal?, himage, hagrees]
      have hall : (s.image settled).feedAll (t :: ts) = (u.image settled').feedAll ts := by
        simp only [Parse.State.feedAll, Parse.State.feed, himage, hagrees]
      have hrun (us : List Token) : s.run (t :: us) = u.run us := by rw [State.run, hstep, Option.bind_some]
      rw [hall, hrefusal]
      rcases ih u settled' with ⟨s', settled'', hs', htaken⟩ | ⟨before, x, after, s', _, rfl, hs', hx⟩ | harrow
      · exact .inl ⟨s', settled'', (hrun ts).trans hs', htaken⟩
      · exact .inr (.inl ⟨t :: before, x, after, s', _, rfl, (hrun before).trans hs', hx⟩)
      · exact .inr (.inr harrow)
    · simp only [hstep, Agrees] at hagrees
      refine .inr (.inr ⟨i, ?_⟩)
      simp only [Parse.State.refusal?, himage, hagrees]

/-- What the end of the tokens completes. -/
theorem lastArrow?_of_finish {s : State} {d : Derivation .module} {i : Nat} (h : s.finish = some (d, some i))
    (settled : Option Nat) : (s.image settled).lastArrow? = some i := by
  unfold State.finish at h
  split at h
  · split at h
    · cases h
    · cases h
  · rename_i signs p hs
    have hclosed := closePhrase_closing signs p s.stack
    have hstack : (closing signs p s.stack).2 = [] ∧ firstSlip s.stack = some i := by
      split at h
      · rename_i hc
        simp only [Option.some.injEq, Prod.mk.injEq] at h
        exact ⟨congrArg Prod.snd hc, h.2⟩
      · rename_i hc
        simp only [Option.some.injEq, Prod.mk.injEq] at h
        exact ⟨congrArg Prod.snd hc, h.2⟩
      · cases h
    simp [Parse.State.lastArrow?, State.image, hs, hclosed, hstack]
  · cases h

end Grammar

/-! ## The offset that is reported -/

namespace Scan

/-- What a scan that has come to `l` finds in a text: tokens that start inside the text, and before the place
where it is blocked, at which no piece begins. -/
structure Within (text : List Char) (l : Layout) (r : Result) : Prop where
  start_lt : ∀ t ∈ r.tokens, t.start < text.length
  blocked : ∀ k, r.stop = .blocked k → l.offset ≤ k ∧ (∀ t ∈ r.tokens, t.start < k) ∧
    ∃ c cs, text.drop k = c :: cs ∧ piece? c cs = none

theorem scan_within (text : List Char) : Within text .start (scan text) := by
  refine ⟨fun t ht => ?_, fun k hk => ?_⟩
  · obtain ⟨before, after, htokens⟩ := List.append_of_mem ht
    obtain ⟨l, p, w, -, hstart, htakes⟩ := passes_of_tokens htokens
    exact hstart ▸ Nat.lt_of_lt_of_le htakes.offset_lt htakes.offset_le
  · have hstart : Passes text .start [] := .start
    obtain ⟨l, hpasses, hhalts⟩ := hstart.halts
    rw [hk] at hhalts
    cases hhalts with
    | blocked hrest hpiece => exact ⟨Nat.zero_le _, hpasses.increasing.1, _, _, hrest, hpiece⟩

theorem Within.blocked_lt {text : List Char} {l : Layout} {r : Result} (h : Within text l r) {k : Nat}
    (hk : r.stop = .blocked k) : k < text.length := by
  obtain ⟨-, -, c, cs, hdrop, -⟩ := h.blocked k hk
  have hlength := congrArg List.length hdrop
  rw [List.length_drop, List.length_cons] at hlength
  omega

def tokensBefore (text : String) (offset : Nat) : List Token :=
  (scan text.toList).tokens.filter (·.start < offset)

/-- The tokens before one start before it, and those after it start after it. -/
theorem starts_around {text : String} {before after : List Token} {t : Token}
    (htokens : (scan text.toList).tokens = before ++ t :: after) :
    (∀ u ∈ before, u.start < t.start) ∧ ∀ u ∈ after, t.start < u.start := by
  have hincreasing := List.pairwise_map.mp (scan_increasing text.toList)
  rw [htokens, List.pairwise_append, List.pairwise_cons] at hincreasing
  obtain ⟨-, ⟨hafter, -⟩, hbefore⟩ := hincreasing
  exact ⟨fun u hu => hbefore u hu t (List.mem_cons_self ..), hafter⟩

/-- The tokens that start before one of them. -/
theorem tokensBefore_start {text : String} {before after : List Token} {t : Token}
    (htokens : (scan text.toList).tokens = before ++ t :: after) : tokensBefore text t.start = before := by
  obtain ⟨hbefore, hafter⟩ := starts_around htokens
  rw [tokensBefore, htokens, List.filter_append, List.filter_eq_self.mpr, List.filter_eq_nil_iff.mpr,
    List.append_nil]
  · intro u hu
    rw [decide_eq_true_eq]
    rcases List.mem_cons.mp hu with rfl | hu
    · exact Nat.lt_irrefl _
    · exact Nat.lt_asymm (hafter u hu)
  · intro u hu
    exact decide_eq_true (hbefore u hu)

theorem tokensBefore_of_lt {text : String} {offset : Nat} (hlt : ∀ t ∈ (scan text.toList).tokens, t.start < offset) :
    tokensBefore text offset = (scan text.toList).tokens :=
  List.filter_eq_self.mpr fun t ht => decide_eq_true (hlt t ht)

end Scan

namespace Grammar

/-- A text ceases to be the front of a module at an offset. The tokens before it are the front of one. At the
offset nothing can be scanned, or stands a token with which they are the front of none, or the text ends and
they are no module themselves. -/
def Ceases (text : String) (offset : Nat) : Prop :=
  Viable (Scan.tokensBefore text offset) ∧
    ((∃ c cs, text.toList.drop offset = c :: cs ∧ Scan.piece? c cs = none) ∨
      (∃ t ∈ (Scan.scan text.toList).tokens, t.start = offset ∧
        ¬ Viable (Scan.tokensBefore text offset ++ [t])) ∨
      (offset = text.length ∧ (Scan.scan text.toList).stop = .ended ∧
        ¬ ∃ d : Derivation .module, d.yield = Scan.tokensBefore text offset))

section

variable {text : String} {s : State}

/-- A token that the builder does not take. -/
theorem ceases_at_token {before after : List Token} {t : Token}
    (htokens : (Scan.scan text.toList).tokens = before ++ t :: after) (hrun : State.start.run before = some s)
    (hstep : s.step t.lexeme t.start = none) : Ceases text t.start := by
  have hmem : t ∈ (Scan.scan text.toList).tokens := by simp [htokens]
  rw [Ceases, Scan.tokensBefore_start htokens]
  refine ⟨(viable_iff_run before).mpr ⟨s, hrun⟩, .inr (.inl ⟨t, hmem, rfl, fun hviable => ?_⟩)⟩
  obtain ⟨s', hs'⟩ := (viable_iff_run _).mp hviable
  rw [run_append, hrun, Option.bind_some, State.run, hstep] at hs'
  cases hs'

theorem ceases_at_block (hrun : State.start.run (Scan.scan text.toList).tokens = some s) {offset : Nat}
    (hstop : (Scan.scan text.toList).stop = .blocked offset) : Ceases text offset := by
  obtain ⟨-, hlt, hpiece⟩ := (Scan.scan_within text.toList).blocked offset hstop
  rw [Ceases, Scan.tokensBefore_of_lt hlt]
  exact ⟨(viable_iff_run _).mpr ⟨s, hrun⟩, .inl hpiece⟩

/-- An end that the builder does not take. -/
theorem ceases_at_end (hrun : State.start.run (Scan.scan text.toList).tokens = some s)
    (hstop : (Scan.scan text.toList).stop = .ended) (hfinish : s.finish = none) : Ceases text text.length := by
  have hlt := (Scan.scan_within text.toList).start_lt
  rw [String.length_toList] at hlt
  rw [Ceases, Scan.tokensBefore_of_lt hlt]
  refine ⟨(viable_iff_run _).mpr ⟨s, hrun⟩, .inr (.inr ⟨rfl, hstop, fun hderivable => ?_⟩)⟩
  obtain ⟨d, hbuild⟩ := (derivable_iff_build _).mp hderivable
  rw [build, hrun, Option.bind_some, hfinish] at hbuild
  cases hbuild

/-- Reading stops where the text ceases to be the front of a module. -/
theorem stopped_where_ceases (hrefused : (Reading.ofText text).verdict = .refused)
    (harrow : Reading.stopsAtArrow text = false) : ∃ offset settled,
      Reading.ofText text = Reading.stopped text.toList offset settled ∧ offset ≤ text.length ∧
        Ceases text offset := by
  have hwithin := Scan.scan_within text.toList
  have hlength : text.toList.length = text.length := String.length_toList
  rw [Reading.ofText] at hrefused ⊢
  unfold Reading.stopsAtArrow at harrow
  rcases feedAll_cases State.start (Scan.scan text.toList).tokens (some 0) with
    ⟨s, settled, hrun, hfeed, hrefusal⟩ | ⟨before, t, after, s, settled, htokens, hrun, hstep, hfeed⟩ | ⟨i, hi⟩
  · rw [image_start] at hfeed hrefusal
    simp only [hfeed, hrefusal] at hrefused harrow ⊢
    cases hstop : (Scan.scan text.toList).stop with
    | blocked offset =>
      refine ⟨offset, _, rfl, ?_, ceases_at_block hrun hstop⟩
      rw [← hlength]
      exact Nat.le_of_lt (hwithin.blocked_lt hstop)
    | fault f =>
      simp only [hstop] at hrefused
      cases hrefused
    | ended =>
      simp only [hstop] at hrefused harrow ⊢
      have hagrees := finish_agrees s settled text.toList.length
      rcases hfinish : s.finish with _ | ⟨d, _ | i⟩
      · simp only [hfinish] at hagrees
        rw [hagrees]
        exact ⟨_, _, rfl, Nat.le_of_eq String.length_toList, by
          rw [String.length_toList]
          exact ceases_at_end hrun hstop hfinish⟩
      · simp only [hfinish] at hagrees
        rw [hagrees] at hrefused
        cases hrefused
      · rw [lastArrow?_of_finish hfinish settled] at harrow
        cases harrow
  · rw [image_start] at hfeed
    simp only [hfeed]
    refine ⟨t.start, _, rfl, Nat.le_of_lt ?_, ceases_at_token htokens hrun hstep⟩
    rw [← String.length_toList]
    exact hwithin.start_lt t (by simp [htokens])
  · rw [image_start] at hi
    simp only [hi] at harrow
    cases harrow

theorem length_sub_drop {offset : Nat} (hle : offset ≤ text.length) :
    text.length - (String.ofList (text.toList.drop offset)).length = offset := by
  rw [String.length_ofList, List.length_drop, String.length_toList]
  omega

/-- A text is refused where it ceases to be the front of a module: the offset that is reported is the length
of the text less that of its shortest rest. -/
theorem refused_where_ceases (hrefused : (Reading.ofText text).verdict = .refused)
    (harrow : Reading.stopsAtArrow text = false) :
    ∃ shortest, (Reading.ofText text).shortest = some shortest ∧
      Ceases text (text.length - shortest.length) := by
  obtain ⟨offset, settled, hstopped, hle, hceases⟩ := stopped_where_ceases hrefused harrow
  refine ⟨String.ofList (text.toList.drop offset), by rw [hstopped]; rfl, ?_⟩
  rwa [length_sub_drop hle]

end

theorem refused_where_ceases_bracket :
    (Reading.ofText "f = (1) => [2, if f then 3)").verdict = .refused ∧
      Reading.stopsAtArrow "f = (1) => [2, if f then 3)" = false ∧
      Ceases "f = (1) => [2, if f then 3)" 26 := by
  have hrefused : (Reading.ofText "f = (1) => [2, if f then 3)").verdict = .refused := rfl
  have harrow : Reading.stopsAtArrow "f = (1) => [2, if f then 3)" = false := rfl
  obtain ⟨shortest, hshortest, hceases⟩ := refused_where_ceases hrefused harrow
  obtain rfl : ")" = shortest := Option.some.inj hshortest
  exact ⟨hrefused, harrow, hceases⟩

end Grammar

end LazyModules
