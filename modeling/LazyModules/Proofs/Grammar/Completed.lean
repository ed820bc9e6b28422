import LazyModules.Proofs.Grammar.Settled
import LazyModules.Proofs.Grammar.Arrows

/-!
# The statement in progress

A reading that stops hands back the text from the first token of the statement in progress. That is the statement after
the last import or declaration that was complete. An import is complete with its string; a declaration is complete when a
token has come that the next statement can begin with. The token at which the reading stops does not count.

**Results.** `gains_of_step`: what a token completes in the builder. `longest_completed`: the builder completes all imports
and declarations as soon as the tokens say so. `feed_begun`, `feedAll_begun`: the machine keeps the offset of the first
token after what the builder has completed. `rest_in_progress`: so that is where the rest of a refused text begins.
-/
namespace LazyModules

namespace Grammar

/-- `front` is made of imports and declarations that are complete when `back` has come after them. -/
inductive Completed : List Token → List Token → Prop where
  | imports (is : List (Derivation .directive)) (back : List Token) : Completed (is.flatMap Derivation.yield) back
  | declarations (is : List (Derivation .directive)) (ds : Derivation .declarations) {t : Token} (us : List Token)
      {e : Derivation .expr} {more : List Token} (ht : e.yield = t :: more) :
      Completed (is.flatMap Derivation.yield ++ ds.yield) (t :: us)

/-- Of all that is complete in the tokens, `front` is the longest. -/
structure LastCompleted (ts front back : List Token) : Prop where
  split : ts = front ++ back
  completed : Completed front back
  longest : ∀ front' back', ts = front' ++ back' → Completed front' back' → front' <+: front

/-- Where the statement after `front` begins: at the front of the text if nothing comes before it, else at its first
token, if there is one. -/
def begun : List Token → List Token → Option Nat
  | [], _ => some 0
  | _ :: _, back => back.head?.map Token.start

/-! ## Tokens that follow a declaration -/

/-- The lexemes that a statement can begin with are those that some expression begins with. -/
theorem beginsExpr_iff (t : Token) :
    Parse.beginsExpr t.lexeme = true ↔ ∃ (e : Derivation .expr) (more : List Token), e.yield = t :: more := by
  constructor
  · intro ht
    have hprimary (p : Derivation .primary) : ∃ e : Derivation .expr, e.yield = p.yield :=
      ⟨.operand (.unsigned (.primary p)), by simp⟩
    have hwhole (p : Derivation .primary) {more : List Token} (hp : p.yield = t :: more) :
        ∃ (e : Derivation .expr) (more : List Token), e.yield = t :: more := by
      obtain ⟨e, he⟩ := hprimary p
      exact ⟨e, more, he.trans hp⟩
    have hnil : ∃ e : Derivation .expr, e.yield = [⟨.literal .nil, 0⟩] := hprimary (.literal .nil 0)
    obtain ⟨e, -⟩ := hnil
    obtain ⟨x, i⟩ := t
    cases x with
    | name n => exact hwhole (.lookup (.name n i)) rfl
    | literal c => exact hwhole (.literal c i) rfl
    | string s => exact hwhole (.string s i) rfl
    | mark m =>
      cases m
      case openParen => exact hwhole (.grouped (.parens i e 0)) rfl
      case openBracket => exact hwhole (.list i .none 0) rfl
      case openBrace => exact hwhole (.record i .none 0) rfl
      case negate => exact ⟨.operand (.signed .neg i (.unsigned (.primary (.literal .nil 0)))), _, rfl⟩
      case bang => exact ⟨.operand (.signed .not i (.unsigned (.primary (.literal .nil 0)))), _, rfl⟩
      case ifWord => exact ⟨.conditional i e 0 e 0 e, _, rfl⟩
      all_goals cases ht
  · rintro ⟨e, more, he⟩
    obtain ⟨t', us, hyield, ht'⟩ : Begins e.yield := begins e
    rw [he] at hyield
    obtain ⟨rfl, -⟩ := List.cons.inj hyield
    exact ht'

/-- What is complete depends on the first token after it alone. -/
theorem Completed.of_head {front back back' : List Token} (h : Completed front back)
    (hhead : ∀ t, back.head? = some t → back'.head? = some t) : Completed front back' := by
  cases h with
  | imports is => exact .imports is back'
  | declarations is ds us ht =>
    obtain ⟨us', rfl⟩ := List.head?_eq_some_iff.mp (hhead _ rfl)
    exact .declarations is ds us' ht

theorem begun_of_head {back back' : List Token} (front : List Token) (hhead : back'.head? = back.head?) :
    begun front back' = begun front back := by
  cases front with
  | nil => rfl
  | cons => rw [begun, begun, hhead]

/-! ## What the builder has completed -/

namespace State

def completed (s : State) : List Token := s.imports.flatMap Derivation.yield ++ declaredTokens s.declarations

def current (s : State) : List Token := s.statement.tokens ++ stackTokens s.stack ++ s.focus.tokens

theorem tokens_eq (s : State) : s.tokens = s.completed ++ s.current := by
  simp [tokens, completed, current]

/-- What the token `t` completes on the way to `u`. -/
inductive Gains (t : Token) (s u : State) : Prop where
  | nothing (himports : u.imports = s.imports) (hdeclarations : u.declarations = s.declarations)
  | declaration (n : Derivation .name) (i : Nat) (e : Derivation .expr) (himports : u.imports = s.imports)
      (hdeclarations : u.declarations = some (declare n i e s.declarations)) (hcurrent : u.current = [t])
      (hbegins : Parse.beginsExpr t.lexeme = true)
  | directive (d : Derivation .directive) (himports : u.imports = s.imports ++ [d])
      (hdeclarations : u.declarations = s.declarations) (hnone : s.declarations = none) (hcurrent : u.current = [])

variable {s u : State} {signs : Signs} {p : Derivation .suffixed} {x : Lexeme} {i : Nat} {slip : Option Nat}

theorem completed_congr (himports : u.imports = s.imports) (hdeclarations : u.declarations = s.declarations) :
    u.completed = s.completed := by
  rw [completed, completed, himports, hdeclarations]

/-- If nothing is completed, tokens go to the statement in progress. -/
theorem current_of_tokens {ts : List Token} (htokens : u.tokens = s.tokens ++ ts) (hcompleted : u.completed = s.completed) :
    u.current = s.current ++ ts := by
  rw [tokens_eq, tokens_eq, hcompleted, List.append_assoc, List.append_cancel_left_eq] at htokens
  exact htokens

theorem begin_keeps (h : s.begin signs x i = some u) : u.imports = s.imports ∧ u.declarations = s.declarations := by
  unfold State.begin State.closeEmpty at h
  extract_lets whole enter at h
  repeat' split at h
  all_goals cases h
  all_goals exact ⟨rfl, rfl⟩

theorem gains_of_close {m : Mark} (h : s.close signs p m i = some (u, slip)) : Gains ⟨x, i⟩ s u := by
  unfold State.close at h
  extract_lets next at h
  split at h
  repeat' split at h
  all_goals cases h
  all_goals exact .nothing rfl rfl

theorem gains_of_nextStatement (h : s.nextStatement signs p x i = some (u, slip)) : Gains ⟨x, i⟩ s u := by
  unfold State.nextStatement at h
  split at h
  · cases h
  rename_i hbegins
  split at h
  · rename_i n j e _ _
    obtain ⟨v, hv, heq⟩ := Option.map_eq_some_iff.mp h
    obtain ⟨rfl, -⟩ := Prod.mk.inj heq
    obtain ⟨himports, hdeclarations⟩ := begin_keeps hv
    -- the token is all there is of the statement that it begins
    have hcurrent := current_of_tokens (begin_takes _ _ _ _ _ rfl hv).tokens (completed_congr himports hdeclarations)
    exact .declaration n j e himports hdeclarations hcurrent (by simpa using hbegins)
  · cases h

theorem gains_of_continueMark {m : Mark} (h : s.continueMark signs p m i = some (u, slip)) : Gains ⟨.mark m, i⟩ s u := by
  unfold State.continueMark at h
  extract_lets next at h
  have hnext {fs : List Pending} {f : Focus} {r : State × Option Nat} (h : next fs f = some r) :
      Gains ⟨.mark m, i⟩ s r.1 := by
    cases h
    exact .nothing rfl rfl
  split at h
  · exact hnext h
  · exact hnext h
  · exact hnext h
  · obtain ⟨hd, -, h⟩ := Option.bind_eq_some_iff.mp h
    exact hnext h
  · split at h
    · cases h
      exact .nothing rfl rfl
    · cases h
  · split at h
    · exact hnext h
    · exact gains_of_close h
  · split at h
    · exact hnext h
    · split at h
      · exact gains_of_nextStatement h
      · exact gains_of_close h

theorem gains_of_continue (h : s.continue signs p x i = some (u, slip)) : Gains ⟨x, i⟩ s u := by
  unfold State.continue at h
  split at h
  · exact gains_of_continueMark h
  · split at h
    · rename_i hstatement hstack _ hnone
      cases h
      refine .directive _ rfl rfl hnone ?_
      simp [current, hstatement, hstack]
    · exact gains_of_nextStatement h
  · exact gains_of_nextStatement h

/-- A token completes nothing, one declaration or one import. -/
theorem gains_of_step (h : s.step x i = some (u, slip)) : Gains ⟨x, i⟩ s u := by
  unfold State.step at h
  extract_lets next at h
  split at h
  · obtain ⟨v, hv, heq⟩ := Option.map_eq_some_iff.mp h
    obtain ⟨rfl, -⟩ := Prod.mk.inj heq
    obtain ⟨himports, hdeclarations⟩ := begin_keeps hv
    exact .nothing himports hdeclarations
  · exact gains_of_continue h
  all_goals cases h
  all_goals exact .nothing rfl rfl

/-- The imports and declarations that are complete stay so. -/
theorem completed_prefix_of_step (h : s.step x i = some (u, slip)) : s.completed <+: u.completed := by
  have htokens := (step_takes _ _ _ _ _ h).tokens
  cases gains_of_step h with
  | nothing himports hdeclarations =>
    have hcompleted := completed_congr himports hdeclarations
    exact ⟨[], by rw [List.append_nil, hcompleted]⟩
  | declaration n j e _ _ hcurrent _ =>
    rw [u.tokens_eq, hcurrent, List.append_cancel_right_eq, s.tokens_eq] at htokens
    exact ⟨_, htokens.symm⟩
  | directive d _ _ _ hcurrent =>
    rw [u.tokens_eq, hcurrent, List.append_nil, s.tokens_eq, List.append_assoc] at htokens
    exact ⟨_, htokens.symm⟩

theorem completed_prefix_of_run {ts : List Token} (h : s.run ts = some u) : s.completed <+: u.completed := by
  induction ts generalizing s with
  | nil =>
    obtain rfl := Option.some.inj h
    exact List.prefix_rfl
  | cons t ts ih =>
    obtain ⟨⟨v, slip⟩, hstep, hrun⟩ := Option.bind_eq_some_iff.mp h
    exact (completed_prefix_of_step hstep).trans (ih hrun)

/-- What the builder takes for complete is complete. -/
theorem completed_of_step (hs : Completed s.completed s.current) (h : s.step x i = some (u, slip)) :
    Completed u.completed u.current := by
  cases gains_of_step h with
  | nothing himports hdeclarations =>
    have hcompleted := completed_congr himports hdeclarations
    rw [hcompleted, current_of_tokens (step_takes _ _ _ _ _ h).tokens hcompleted]
    exact hs.of_head fun t ht => by rw [List.head?_append, ht, Option.some_or]
  | declaration n j e himports hdeclarations hcurrent hbegins =>
    obtain ⟨e', more, he'⟩ := (beginsExpr_iff _).mp hbegins
    rw [completed, hdeclarations, hcurrent]
    exact .declarations u.imports _ [] he'
  | directive d himports hdeclarations hnone hcurrent =>
    rw [completed, hdeclarations, hnone, hcurrent, declaredTokens, List.append_nil]
    exact .imports u.imports []

theorem completed_of_run {ts : List Token} (hs : Completed s.completed s.current) (h : s.run ts = some u) :
    Completed u.completed u.current := by
  induction ts generalizing s with
  | nil =>
    obtain rfl := Option.some.inj h
    exact hs
  | cons t ts ih =>
    obtain ⟨⟨v, slip⟩, hstep, hrun⟩ := Option.bind_eq_some_iff.mp h
    exact ih (completed_of_step hs hstep) hrun

end State

/-! ## Whatever is complete has been completed -/

theorem reaches_directives (is js : List (Derivation .directive)) :
    Reaches (.before is none) (js.flatMap Derivation.yield) (.before (is ++ js) none) := by
  induction js generalizing is with
  | nil =>
    rw [List.append_nil]
    exact .refl _
  | cons d js ih =>
    cases d with
    | directive n t i =>
      have hname := reaches_name (.before is none) [] n rfl
      have hstring : Reaches (State.atEnd (.before is none) [] [] (.primary (.lookup n))) [⟨.string t, i⟩]
          (.before (is ++ [.directive n t i]) none) := Reaches.step rfl
      have hmore := ih (is ++ [.directive n t i])
      rw [List.append_assoc] at hmore
      simpa using hname.trans (hstring.trans hmore)

/-- A token that some expression begins with completes the declarations before it. -/
theorem reaches_completed (is : List (Derivation .directive)) (ds : Derivation .declarations) {t : Token}
    {e : Derivation .expr} {more : List Token} (ht : e.yield = t :: more) :
    ∃ s, Reaches .start (is.flatMap Derivation.yield ++ ds.yield ++ [t]) s ∧
      s.completed = is.flatMap Derivation.yield ++ ds.yield := by
  have hbegins : Parse.beginsExpr t.lexeme = true := (beginsExpr_iff t).mpr ⟨e, more, ht⟩
  obtain ⟨prev, n, i, gs, signs, p, d, hreaches, hclosing, hdeclare⟩ :=
    reaches_declarations is ds.regroup (Derivation.preferred_regroup ds)
  rw [Derivation.yield_regroup] at hreaches
  obtain ⟨s, hs⟩ := begin_isSome (.before is (some ds.regroup)) t.lexeme t.start hbegins
  have hstep : Reaches (.before is (some (declare n i d prev))) [t] s := by
    rw [hdeclare]
    exact Reaches.step (by simp [State.step, hs])
  refine ⟨s, ((reaches_directives [] is).trans hreaches).trans (.next is hclosing ⟨t, [], rfl, hbegins⟩ hstep), ?_⟩
  obtain ⟨himports, hdeclarations⟩ := State.begin_keeps hs
  rw [State.completed, himports, hdeclarations, declaredTokens, Derivation.yield_regroup]

/-- The builder has completed all that is complete in the tokens that it took. -/
theorem longest_completed {front back : List Token} {s : State} (h : Completed front back)
    (hrun : State.start.run (front ++ back) = some s) : front <+: s.completed := by
  cases h with
  | imports is =>
    have hreaches := reaches_directives [] is
    rw [run_append, show State.start.run _ = _ from hreaches, Option.bind_some] at hrun
    have hmore := State.completed_prefix_of_run hrun
    simpa [State.completed] using hmore
  | declarations is ds us ht =>
    obtain ⟨u, hreaches, hcompleted⟩ := reaches_completed is ds ht
    rw [← List.singleton_append, ← List.append_assoc, run_append, show State.start.run _ = _ from hreaches,
      Option.bind_some] at hrun
    rw [← hcompleted]
    exact State.completed_prefix_of_run hrun

/-- What is complete in the tokens that the builder took. -/
theorem lastCompleted_of_run {ts : List Token} {s : State} (hrun : State.start.run ts = some s) :
    LastCompleted ts s.completed s.current := by
  have htokens : s.tokens = ts := (run_takes _ _ _ hrun).1
  have hstart : Completed State.start.completed State.start.current := .imports [] []
  refine ⟨htokens.symm.trans s.tokens_eq, State.completed_of_run hstart hrun, ?_⟩
  intro front' back' hsplit h
  rw [hsplit] at hrun
  exact longest_completed h hrun

/-! ## What the machine keeps -/

theorem begun_of_ne_nil {front : List Token} (h : front ≠ []) (back : List Token) :
    begun front back = back.head?.map Token.start := by
  cases front with
  | nil => exact absurd rfl h
  | cons => rfl

theorem begun_concat (front back : List Token) (t : Token) :
    begun front (back ++ [t]) = (begun front back <|> some t.start) := by
  cases front with
  | nil => rfl
  | cons => cases back <;> rfl

/-- The machine keeps the offset where the statement in progress begins. -/
theorem feed_begun {s u : State} {t : Token} {slip settled : Option Nat} (hstep : s.step t.lexeme t.start = some (u, slip))
    (hfeed : (s.image (begun s.completed s.current)).feed t = .ok (u.image settled)) :
    settled = begun u.completed u.current := by
  have htokens := (step_takes _ _ _ _ _ hstep).tokens
  cases Parse.State.step_completes (Parse.State.step_of_feed hfeed) with
  | nothing hsame =>
    have himported := congrArg List.length hsame.imports
    have hdeclared := congrArg List.length hsame.declarations
    cases State.gains_of_step hstep with
    | nothing himports hdeclarations =>
      have hcompleted := State.completed_congr himports hdeclarations
      rw [hcompleted, State.current_of_tokens htokens hcompleted, begun_concat]
      exact hsame.settled
    | declaration n i e _ hdeclarations => simp [State.image, hdeclarations, declared_declare] at hdeclared
    | directive d himports => simp [State.image, himports] at himported
  | declaration d himports' hdeclarations' hsettled =>
    have himported := congrArg List.length himports'
    have hdeclared := congrArg List.length hdeclarations'
    cases State.gains_of_step hstep with
    | nothing _ hdeclarations => simp [State.image, hdeclarations] at hdeclared
    | declaration n i e _ hdeclarations hcurrent =>
      have hnonempty : u.completed ≠ [] := by simp [State.completed, hdeclarations]
      rw [begun_of_ne_nil hnonempty, hcurrent]
      exact hsettled
    | directive d himports => simp [State.image, himports] at himported
  | directive d himports' hdeclarations' hsettled =>
    have himported := congrArg List.length himports'
    have hdeclared := congrArg List.length hdeclarations'
    cases State.gains_of_step hstep with
    | nothing himports _ => simp [State.image, himports] at himported
    | declaration n i e _ hdeclarations => simp [State.image, hdeclarations, declared_declare] at hdeclared
    | directive d _ _ _ hcurrent =>
      have hnonempty : u.completed ≠ [] := by
        rw [u.tokens_eq, hcurrent, List.append_nil] at htokens
        simp [htokens]
      rw [begun_of_ne_nil hnonempty, hcurrent]
      exact hsettled

theorem feedAll_begun {s : State} {ts : List Token} {r : Parse.State}
    (h : (s.image (begun s.completed s.current)).feedAll ts = .ok r) :
    ∃ u, s.run ts = some u ∧ r = u.image (begun u.completed u.current) := by
  induction ts generalizing s with
  | nil =>
    cases h
    exact ⟨s, rfl, rfl⟩
  | cons t ts ih =>
    have hagrees := feed_agrees s t (begun s.completed s.current)
    unfold Parse.State.feedAll at h
    rcases hstep : s.step t.lexeme t.start with _ | ⟨v, _ | k⟩
    · simp only [hstep] at hagrees
      rw [hagrees] at h
      cases h
    · simp only [hstep] at hagrees
      obtain ⟨settled, hfeed⟩ := hagrees
      obtain rfl := feed_begun hstep hfeed
      rw [hfeed] at h
      obtain ⟨u, hrun, hr⟩ := ih h
      refine ⟨u, ?_, hr⟩
      rw [State.run, hstep, Option.bind_some, hrun]
    · simp only [hstep] at hagrees
      rw [hagrees] at h
      cases h

end Grammar

namespace Parse

/-- A machine that stops has taken the tokens before the one where it does. -/
theorem State.feedAll_stops {s : State} {ts : List Token} {halt : Halt} (h : s.feedAll ts = .error halt) :
    ∃ before t after u, ts = before ++ t :: after ∧ s.feedAll before = .ok u ∧ u.feed t = .error halt := by
  induction ts generalizing s with
  | nil => cases h
  | cons t ts ih =>
    unfold State.feedAll at h
    split at h
    · rename_i v hfeed
      obtain ⟨before, t', after, u, rfl, hbefore, hstops⟩ := ih h
      refine ⟨t :: before, t', after, u, rfl, ?_, hstops⟩
      rw [State.feedAll, hfeed]
      exact hbefore
    · rename_i halt' hfeed
      cases h
      exact ⟨[], t, ts, s, rfl, rfl, hfeed⟩

end Parse

namespace Reading

open Grammar

variable {text : String}

/-- Where the statement in progress begins if the reading stops at an offset. -/
def InProgress (text : String) (offset start : Nat) : Prop :=
  ∃ front back, LastCompleted (Scan.tokensBefore text offset) front back ∧ start = (begun front back).getD offset

theorem InProgress.le {offset start : Nat} (h : InProgress text offset start) : start ≤ offset := by
  obtain ⟨front, back, hlast, rfl⟩ := h
  cases hbegun : begun front back with
  | none => exact Nat.le_refl _
  | some k =>
    cases front with
    | nil =>
      cases hbegun
      exact Nat.zero_le _
    | cons =>
      obtain ⟨t, ht, rfl⟩ := Option.map_eq_some_iff.mp hbegun
      have hmem : t ∈ Scan.tokensBefore text offset := by
        rw [hlast.split]
        exact List.mem_append_right _ (List.mem_of_mem_head? ht)
      have hlt := (List.mem_filter.mp hmem).2
      exact Nat.le_of_lt (of_decide_eq_true hlt)

/-- The reading stops after the tokens that the builder took. -/
theorem inProgress_of_run {s : State} {offset : Nat} (hrun : State.start.run (Scan.tokensBefore text offset) = some s) :
    InProgress text offset ((begun s.completed s.current).getD offset) :=
  ⟨_, _, lastCompleted_of_run hrun, rfl⟩

/-- The reading stops at an arrow that the builder has gone past. Nothing was completed since. -/
theorem inProgress_of_slip {s : State} {before after : List Token} {k : Nat}
    (htokens : (Scan.scan text.toList).tokens = before ++ after) (hrun : State.start.run before = some s)
    (hslip : firstSlip s.stack = some k) : ∃ start, begun s.completed s.current = some start ∧ InProgress text k start := by
  have hlast := lastCompleted_of_run hrun
  obtain ⟨front, p, back, hcurrent, -⟩ : MisplacedArrow s.current k := (misplaced_of_firstSlip hslip).append _ _
  rw [← List.append_assoc] at hcurrent
  obtain ⟨t, ts, hnonempty⟩ : ∃ t ts, front ++ p.yield = t :: ts := by
    apply List.exists_cons_of_ne_nil
    cases p
    simp
  rw [hnonempty] at hcurrent
  have hsplit : before = (s.completed ++ t :: ts) ++ mark .arrow k :: back := by
    rw [hlast.split, hcurrent, List.append_assoc]
  have hbefore : Scan.tokensBefore text k = s.completed ++ t :: ts := by
    rw [hsplit, List.append_assoc, List.cons_append] at htokens
    exact Scan.tokensBefore_start htokens
  have hhead : (t :: ts).head? = s.current.head? := by rw [hcurrent]; rfl
  rw [hsplit, run_append] at hrun
  obtain ⟨u, hu, hlater⟩ := Option.bind_eq_some_iff.mp hrun
  obtain ⟨start, hstart⟩ : ∃ start, begun s.completed (t :: ts) = some start := by
    cases s.completed with
    | nil => exact ⟨0, rfl⟩
    | cons => exact ⟨t.start, rfl⟩
  refine ⟨start, (begun_of_head _ hhead).symm.trans hstart, s.completed, t :: ts, ⟨hbefore, ?_, ?_⟩, by rw [hstart]; rfl⟩
  · exact hlast.completed.of_head fun t' ht' => hhead.trans ht'
  · intro front' back' hsplit' hcompleted
    rw [hbefore] at hsplit'
    exact ((lastCompleted_of_run hu).longest front' back' hsplit' hcompleted).trans (State.completed_prefix_of_run hlater)

/-- Where a reading can stop: at a token, where the scan is blocked, or at the end of a text that is scanned to its
end. -/
def Halts (text : String) (offset : Nat) : Prop :=
  (∃ t ∈ (Scan.scan text.toList).tokens, t.start = offset) ∨ (Scan.scan text.toList).stop = .blocked offset ∨
    (Scan.scan text.toList).stop = .ended ∧ offset = text.length

theorem Halts.le {offset : Nat} (h : Halts text offset) : offset ≤ text.length := by
  have hwithin := Scan.scan_within text.toList
  have hlength : text.toList.length = text.length := String.length_toList
  rcases h with ⟨t, ht, rfl⟩ | hblocked | ⟨-, rfl⟩
  · have hlt := hwithin.start_lt t ht
    omega
  · have hlt := hwithin.blocked_lt hblocked
    omega
  · exact Nat.le_refl _

/-- A reading that stops at an offset, with a rest that begins with the statement in progress. -/
def HandsBack (text : String) (r : Reading) : Prop :=
  ∃ offset start, Halts text offset ∧ InProgress text offset start ∧
    r = ⟨.refused, String.ofList (text.toList.drop start), some (String.ofList (text.toList.drop offset))⟩

theorem InProgress.handsBack {offset start : Nat} {settled : Option Nat} (h : InProgress text offset start)
    (hhalts : Halts text offset) (hstart : settled.getD offset = start) :
    HandsBack text (stopped text.toList offset settled) := by
  refine ⟨offset, start, hhalts, h, ?_⟩
  rw [stopped, hstart, Nat.min_eq_left h.le]

/-- The machine stops at a token. -/
theorem handsBack_of_feedAll {halt : Parse.Halt}
    (h : Parse.State.start.feedAll (Scan.scan text.toList).tokens = .error halt) :
    HandsBack text (stopped text.toList halt.offset halt.settled) := by
  obtain ⟨before, t, after, r, htokens, hbefore, hstops⟩ := Parse.State.feedAll_stops h
  obtain ⟨s, hrun, rfl⟩ := feedAll_begun (s := .start) hbefore
  have hagrees := feed_agrees s t (begun s.completed s.current)
  rcases hstep : s.step t.lexeme t.start with _ | ⟨v, _ | k⟩
  · simp only [hstep] at hagrees
    rw [hagrees] at hstops
    cases hstops
    have hprogress : InProgress text t.start ((begun s.completed s.current).getD t.start) := by
      apply inProgress_of_run
      rwa [Scan.tokensBefore_start htokens]
    refine hprogress.handsBack (.inl ⟨t, by simp [htokens], rfl⟩) ?_
    cases begun s.completed s.current <;> rfl
  · simp only [hstep] at hagrees
    obtain ⟨settled, hagrees⟩ := hagrees
    rw [hagrees] at hstops
    cases hstops
  · simp only [hstep] at hagrees
    rw [hagrees] at hstops
    cases hstops
    have hslip := firstSlip_of_step hstep
    obtain ⟨start, hstart, hprogress⟩ := inProgress_of_slip htokens hrun hslip
    refine hprogress.handsBack (.inl ⟨mark .arrow k, ?_, rfl⟩) (by rw [hstart]; rfl)
    rw [htokens]
    exact List.mem_append_left _ (misplaced_of_run hrun hslip).mem

/-- Every reading that refuses its text hands back the statement in progress. -/
theorem handsBack_of_refused (hrefused : (ofText text).verdict = .refused) : HandsBack text (ofText text) := by
  have hwithin := Scan.scan_within text.toList
  rw [ofText] at hrefused ⊢
  cases hfeed : Parse.State.start.feedAll (Scan.scan text.toList).tokens with
  | error halt => exact handsBack_of_feedAll hfeed
  | ok r =>
    simp only [hfeed] at hrefused
    obtain ⟨s, hrun, rfl⟩ := feedAll_begun (s := .start) hfeed
    have hprogress {offset : Nat} (hall : ∀ t ∈ (Scan.scan text.toList).tokens, t.start < offset) :
        InProgress text offset ((begun s.completed s.current).getD offset) := by
      apply inProgress_of_run
      rwa [Scan.tokensBefore_of_lt hall]
    cases hstop : (Scan.scan text.toList).stop with
    | blocked offset =>
      obtain ⟨-, hall, -⟩ := hwithin.blocked offset hstop
      exact (hprogress hall).handsBack (.inr (.inl hstop)) rfl
    | fault f =>
      simp only [hstop] at hrefused
      cases hrefused
    | ended =>
      simp only [hstop] at hrefused ⊢
      have hagrees := finish_agrees s (begun s.completed s.current) text.toList.length
      rcases hfinish : s.finish with _ | ⟨d, _ | k⟩
      · simp only [hfinish] at hagrees
        rw [hagrees]
        exact (hprogress hwithin.start_lt).handsBack (.inr (.inr ⟨hstop, String.length_toList⟩)) rfl
      · simp only [hfinish] at hagrees
        rw [hagrees] at hrefused
        cases hrefused
      · simp only [hfinish] at hagrees
        rw [hagrees]
        have hslip := firstSlip_of_finish hfinish
        obtain ⟨start, hstart, hprogress⟩ := inProgress_of_slip (List.append_nil _).symm hrun hslip
        exact hprogress.handsBack (.inl ⟨mark .arrow k, (misplaced_of_run hrun hslip).mem, rfl⟩) (by rw [hstart]; rfl)

/-- What a refused text hands back. The shortest rest is what comes from the offset where reading stopped, and is the end
of the rest, as the rest is of the text. The rest begins at the front if no import and no declaration is complete in the
tokens before that offset, else with the first token after the last that is, or at the offset if there is none. -/
theorem rest_in_progress {text : String} (hrefused : (ofText text).verdict = .refused) :
    let r := ofText text
    ∃ offset start shortest front back, offset ≤ text.length ∧ r.shortest = some shortest ∧
      shortest.toList = text.toList.drop offset ∧ r.rest.toList = text.toList.drop start ∧
      shortest.toList <:+ r.rest.toList ∧ r.rest.toList <:+ text.toList ∧
      LastCompleted (Scan.tokensBefore text offset) front back ∧ start = (begun front back).getD offset := by
  intro r
  obtain ⟨offset, start, hhalts, hprogress, hr⟩ := handsBack_of_refused hrefused
  have hshortest : r.shortest = some (String.ofList (text.toList.drop offset)) := congrArg Reading.shortest hr
  have hrest : r.rest.toList = text.toList.drop start := by
    show (ofText text).rest.toList = _
    rw [hr, String.toList_ofList]
  have hle' := hprogress.le
  obtain ⟨front, back, hlast, hstart⟩ := hprogress
  refine ⟨offset, start, _, front, back, hhalts.le, hshortest, String.toList_ofList, hrest, ?_, ?_, hlast, hstart⟩
  · rw [hrest, String.toList_ofList]
    exact List.drop_suffix_drop_left _ hle'
  · rw [hrest]
    exact List.drop_suffix _ _

/-- After an import and a declaration: a bracket that closes nothing does not complete the second declaration. -/
theorem rest_in_progress_secondDeclaration :
    (ofText "a \"m\"\nx = 1\ny = 2 )").verdict = .refused ∧ (ofText "a \"m\"\nx = 1\ny = 2 )").rest = "y = 2 )" ∧
      ∃ front back, LastCompleted (Scan.tokensBefore "a \"m\"\nx = 1\ny = 2 )" 18) front back ∧
        begun front back = some 12 := by
  have hrefused : (ofText "a \"m\"\nx = 1\ny = 2 )").verdict = .refused := rfl
  have hrest : (ofText "a \"m\"\nx = 1\ny = 2 )").rest = "y = 2 )" := rfl
  obtain ⟨offset, start, shortest, front, back, hle, hshortest, hoffset, hstart, -, -, hlast, hbegun⟩ :=
    rest_in_progress hrefused
  obtain rfl : ")" = shortest := Option.some.inj hshortest
  have hlength : "a \"m\"\nx = 1\ny = 2 )".toList.length = 19 := rfl
  obtain rfl : offset = 18 := by
    have hone := congrArg List.length hoffset
    have hshort : ")".toList.length = 1 := rfl
    have hle' : offset ≤ 19 := hle
    rw [List.length_drop, hlength] at hone
    omega
  obtain rfl : start = 12 := by
    have hseven := congrArg List.length hstart
    have hlong : "y = 2 )".toList.length = 7 := rfl
    rw [hrest, List.length_drop, hlength] at hseven
    omega
  refine ⟨hrefused, hrest, front, back, hlast, ?_⟩
  cases hcase : begun front back with
  | none => simp [hcase] at hbegun
  | some k => simpa [hcase] using hbegun.symm

end Reading

end LazyModules
