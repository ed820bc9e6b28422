import LazyModules.Reading

/-!
# Where the statement in progress begins

The machine keeps the offset where the statement in progress began. A token that completes a declaration begins the next
statement itself; a string that completes an import leaves it to the token after it to begin one.

**Results.** `step_completes`: a token completes nothing, one declaration or one import, and what the machine keeps
changes with that alone. `feedAll_settled`: along a whole run, the statement in progress begins at the front of the text
or at a token, and if none is in progress, the machine is between two statements. `begun_of_finish`: so a statement is in
progress if the machine does not take the end of the text.
-/
namespace LazyModules.Parse

namespace State

/-- Nothing is completed on the way to `u`. -/
structure Same (s u : State) : Prop where
  imports : u.imports = s.imports
  declarations : u.declarations = s.declarations
  settled : u.settled = s.settled

/-- The place between two statements. -/
structure Between (s : State) : Prop where
  statement : s.statement = .body
  stack : s.stack = []
  focus : s.focus = .operand

/-- What a token at `start` completes on the way to `u`. -/
inductive Completes (start : Nat) (s u : State) : Prop where
  | nothing (h : s.Same u)
  | declaration (d : Declaration) (himports : u.imports = s.imports)
      (hdeclarations : u.declarations = s.declarations ++ [d]) (hsettled : u.settled = some start)
  | directive (i : Import) (himports : u.imports = s.imports ++ [i]) (hdeclarations : u.declarations = s.declarations)
      (hsettled : u.settled = none) (hbetween : u.Between)

variable {s u : State} {x : Lexeme} {start : Nat}

/-! ## One token -/

theorem begin_same (h : s.begin x start = .ok u) : s.Same u := by
  unfold State.begin at h
  extract_lets whole enter at h
  repeat' split at h
  all_goals cases h
  all_goals exact ⟨rfl, rfl, rfl⟩

theorem Same.of_accept {c : Closed} {t : State} (h : c.accept t = .ok u) (ht : s.Same t) : s.Same u := by
  unfold Closed.accept at h
  split at h
  · cases h
  · cases h
    exact ht

theorem close_same {e : Expr} {m : Mark} (h : s.close e m = .ok u) : s.Same u := by
  unfold State.close at h
  extract_lets c e' at h
  split at h
  all_goals first
    | exact .of_accept h ⟨rfl, rfl, rfl⟩
    | cases h

theorem nextStatement_completes {e : Expr} (h : s.nextStatement e x start = .ok u) : s.Completes start u := by
  unfold State.nextStatement at h
  split at h
  · cases h
  split at h
  · cases h
  extract_lets c at h
  split at h
  · split at h
    · cases h
    · obtain ⟨himports, hdeclarations, hsettled⟩ := begin_same h
      exact .declaration _ himports hdeclarations hsettled
  · cases h

theorem continueMark_completes {e : Expr} {form : Form} {m : Mark} (h : s.continueMark e form m start = .ok u) :
    s.Completes start u := by
  unfold State.continueMark at h
  split at h
  -- a bracket or the dot
  · cases h
    exact .nothing ⟨rfl, rfl, rfl⟩
  · cases h
    exact .nothing ⟨rfl, rfl, rfl⟩
  · cases h
    exact .nothing ⟨rfl, rfl, rfl⟩
  -- the arrow and the assignment
  · split at h
    all_goals cases h
    all_goals exact .nothing ⟨rfl, rfl, rfl⟩
  · split at h
    all_goals cases h
    exact .nothing ⟨rfl, rfl, rfl⟩
  · split at h
    · cases h
      exact .nothing ⟨rfl, rfl, rfl⟩
    · exact .nothing (close_same h)
  · split at h
    · cases h
      exact .nothing ⟨rfl, rfl, rfl⟩
    · split at h
      · exact nextStatement_completes h
      · exact .nothing (close_same h)

theorem continue_completes {e : Expr} {form : Form} (h : s.continue e form x start = .ok u) : s.Completes start u := by
  unfold State.continue at h
  split at h
  · exact continueMark_completes h
  · split at h
    · rename_i hstatement hstack _
      cases h
      exact .directive _ rfl rfl rfl ⟨hstatement, hstack, rfl⟩
    · exact nextStatement_completes h
  · exact nextStatement_completes h

/-- A token completes nothing, one declaration or one import. -/
theorem step_completes (h : s.step x start = .ok u) : s.Completes start u := by
  unfold State.step at h
  split at h
  · exact .nothing (begin_same h)
  · exact continue_completes h
  all_goals
    split at h
    all_goals cases h
    all_goals exact .nothing ⟨rfl, rfl, rfl⟩

/-! ## Whole runs -/

/-- The statement in progress begins at the front or at a token; if there is none, the place is between two. -/
structure Settled (ts : List Token) (s : State) : Prop where
  token : ∀ k, s.settled = some k → k = 0 ∨ ∃ t ∈ ts, t.start = k
  between : s.settled = none → s.Between

theorem step_of_feed {t : Token} (h : s.feed t = .ok u) :
    { s with settled := s.settled <|> some t.start }.step t.lexeme t.start = .ok u := by
  unfold State.feed at h
  extract_lets s' at h
  split at h
  · rename_i hstep
    cases h
    exact hstep
  · cases h
  · cases h

theorem Settled.feed {ts : List Token} {t : Token} (hs : Settled ts s) (h : s.feed t = .ok u) :
    Settled (ts ++ [t]) u := by
  have hhere : ∃ t' ∈ ts ++ [t], t'.start = t.start := ⟨t, by simp, rfl⟩
  -- a statement is in progress when the token is taken
  obtain ⟨k, hk, hplace⟩ : ∃ k, (s.settled <|> some t.start) = some k ∧ (k = 0 ∨ ∃ t' ∈ ts ++ [t], t'.start = k) := by
    cases hsettled : s.settled with
    | none => exact ⟨t.start, rfl, .inr hhere⟩
    | some k =>
      refine ⟨k, rfl, (hs.token k hsettled).imp_right fun ⟨t', ht', hstart⟩ => ⟨t', ?_, hstart⟩⟩
      exact List.mem_append_left _ ht'
  cases step_completes (step_of_feed h) with
  | nothing hsame =>
    have hsettled : u.settled = some k := hsame.settled.trans hk
    refine ⟨fun k' hk' => ?_, fun hnone => ?_⟩
    · obtain rfl := Option.some.inj (hsettled.symm.trans hk')
      exact hplace
    · rw [hsettled] at hnone
      cases hnone
  | declaration d _ _ hsettled =>
    refine ⟨fun k' hk' => ?_, fun hnone => ?_⟩
    · obtain rfl := Option.some.inj (hsettled.symm.trans hk')
      exact .inr hhere
    · rw [hsettled] at hnone
      cases hnone
  | directive i _ _ hsettled hbetween =>
    refine ⟨fun k' hk' => ?_, fun _ => hbetween⟩
    rw [hsettled] at hk'
    cases hk'

theorem Settled.feedAll {before ts : List Token} (hs : Settled before s) (h : s.feedAll ts = .ok u) :
    Settled (before ++ ts) u := by
  induction ts generalizing s before with
  | nil =>
    cases h
    rwa [List.append_nil]
  | cons t ts ih =>
    unfold State.feedAll at h
    split at h
    · rename_i v hv
      have hlater := ih (hs.feed hv) h
      rwa [List.append_assoc] at hlater
    · cases h

/-- Along a run from the start, statements begin at the front or at a token. -/
theorem feedAll_settled {ts : List Token} (h : State.start.feedAll ts = .ok u) : Settled ts u := by
  have hstart : Settled [] State.start := by
    refine ⟨fun k hk => ?_, fun hnone => ?_⟩
    · cases hk
      exact .inl rfl
    · cases hnone
  exact hstart.feedAll h

theorem Between.finish (h : s.Between) (length : Nat) : s.finish length = .ok ⟨s.imports, s.declarations, none⟩ := by
  simp only [State.finish, h.focus, h.statement, h.stack]

/-- A machine that does not take the end of the text has taken a token, and a statement is in progress. -/
theorem begun_of_finish {ts : List Token} {length : Nat} {halt : Halt} (h : State.start.feedAll ts = .ok u)
    (hfinish : u.finish length = .error halt) :
    ts ≠ [] ∧ ∃ k, u.settled = some k ∧ (k = 0 ∨ ∃ t ∈ ts, t.start = k) := by
  have hsettled := feedAll_settled h
  refine ⟨?_, ?_⟩
  · rintro rfl
    cases h
    cases hfinish
  · cases hk : u.settled with
    | none =>
      rw [(hsettled.between hk).finish] at hfinish
      cases hfinish
    | some k => exact ⟨k, rfl, hsettled.token k hk⟩

end State

end LazyModules.Parse
