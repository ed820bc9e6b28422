import LazyModules.Proofs.Grammar.Viable

/-!
# Arrows after parentheses

The grammar lets any expression stand in parentheses before an arrow; the machine stops unless it is a lone name. It
does so when the body of the function is complete, and then at the arrow, which it has gone past.

**Results.** `feedAll_error`: the machine stops at a token that the builder does not take, or at an arrow that the
builder tells of. `firstSlip_of_step`, `firstSlip_of_finish`, `misplaced_of_run`: such an arrow stands among the tokens
taken so far, right after parentheses that hold something else than a lone name.
-/
namespace LazyModules.Grammar

/-- Among tokens stands an arrow at `offset`, right after parentheses that do not hold a lone name. -/
def MisplacedArrow (ts : List Token) (offset : Nat) : Prop :=
  ∃ (front : List Token) (p : Derivation .parenthesized) (back : List Token),
    ts = front ++ (p.yield ++ mark .arrow offset :: back) ∧ p.meaning.lookup? = none

theorem MisplacedArrow.append {ts : List Token} {offset : Nat} (h : MisplacedArrow ts offset) (before after : List Token) :
    MisplacedArrow (before ++ ts ++ after) offset := by
  obtain ⟨front, p, back, rfl, hp⟩ := h
  exact ⟨before ++ front, p, back ++ after, by simp, hp⟩

theorem MisplacedArrow.mem {ts : List Token} {offset : Nat} (h : MisplacedArrow ts offset) : mark .arrow offset ∈ ts := by
  obtain ⟨front, p, back, rfl, -⟩ := h
  simp

/-! ## What the builder tells of -/

theorem misplaced_of_firstSlip {fs : List Pending} {k : Nat} (h : firstSlip fs = some k) :
    MisplacedArrow (stackTokens fs) k := by
  have hlater {f : Pending} {fs : List Pending} (h : MisplacedArrow (stackTokens fs) k) :
      MisplacedArrow (stackTokens (f :: fs)) k := h.append [] f.tokens
  fun_induction firstSlip fs with
  | case1 _ _ _ fs ih => exact hlater (ih h)
  | case2 _ _ _ _ _ fs ih => exact hlater (ih h)
  | case3 hd i fs ih =>
    cases hd with
    | one n => exact hlater (ih h)
    | params ps => exact hlater (ih h)
    | paren p =>
      by_cases hname : p.meaning.lookup?.isSome
      · rw [Head.slip, if_pos hname] at h
        exact hlater (ih h)
      · rw [Head.slip, if_neg hname] at h
        obtain rfl : i = k := Option.some.inj h
        exact ⟨stackTokens fs, p, [], by simp, by simpa using hname⟩
  | case4 fs _ _ _ => cases h

variable {s u : State} {x : Lexeme} {i k : Nat} {signs : Signs} {p : Derivation .suffixed}

theorem firstSlip_of_nextStatement (h : s.nextStatement signs p x i = some (u, some k)) : firstSlip s.stack = some k := by
  unfold State.nextStatement at h
  split at h
  · cases h
  split at h
  · obtain ⟨v, -, heq⟩ := Option.map_eq_some_iff.mp h
    exact (Prod.mk.inj heq).2
  · cases h

theorem firstSlip_of_close {m : Mark} (h : s.close signs p m i = some (u, some k)) : firstSlip s.stack = some k := by
  unfold State.close at h
  extract_lets next at h
  have hnext {fs : List Pending} {f : Focus} (h : next fs f = some (u, some k)) : firstSlip s.stack = some k :=
    (Prod.mk.inj (Option.some.inj h)).2
  split at h
  repeat' split at h
  all_goals first
    | exact hnext h
    | cases h

theorem firstSlip_of_continueMark {m : Mark} (h : s.continueMark signs p m i = some (u, some k)) :
    firstSlip s.stack = some k := by
  unfold State.continueMark at h
  extract_lets next at h
  have hnext {fs : List Pending} {f : Focus} (h : next fs f = some (u, some k)) : firstSlip s.stack = some k := by
    cases (Prod.mk.inj (Option.some.inj h)).2
  split at h
  · exact hnext h
  · exact hnext h
  · exact hnext h
  · obtain ⟨hd, -, h⟩ := Option.bind_eq_some_iff.mp h
    exact hnext h
  · split at h
    · cases h
    · cases h
  · split at h
    · exact hnext h
    · exact firstSlip_of_close h
  · split at h
    · exact hnext h
    · split at h
      · exact firstSlip_of_nextStatement h
      · exact firstSlip_of_close h

theorem firstSlip_of_continue (h : s.continue signs p x i = some (u, some k)) : firstSlip s.stack = some k := by
  unfold State.continue at h
  split at h
  · exact firstSlip_of_continueMark h
  · split at h
    · cases h
    · exact firstSlip_of_nextStatement h
  · exact firstSlip_of_nextStatement h

/-- An arrow that the builder tells of is on its stack. -/
theorem firstSlip_of_step (h : s.step x i = some (u, some k)) : firstSlip s.stack = some k := by
  unfold State.step at h
  extract_lets next at h
  split at h
  · obtain ⟨v, -, heq⟩ := Option.map_eq_some_iff.mp h
    cases (Prod.mk.inj heq).2
  · exact firstSlip_of_continue h
  all_goals cases h

theorem firstSlip_of_finish {d : Derivation .module} (h : s.finish = some (d, some k)) : firstSlip s.stack = some k := by
  unfold State.finish at h
  split at h
  · split at h
    · cases h
    · cases h
  · split at h
    · exact (Prod.mk.inj (Option.some.inj h)).2
    · exact (Prod.mk.inj (Option.some.inj h)).2
    · cases h
  · cases h

theorem misplaced_of_run {ts : List Token} (hrun : State.start.run ts = some s) (hslip : firstSlip s.stack = some k) :
    MisplacedArrow ts k := by
  have htokens : s.tokens = ts := (run_takes _ _ _ hrun).1
  rw [← htokens, State.tokens]
  exact (misplaced_of_firstSlip hslip).append _ _

/-! ## Where the machine stops -/

/-- The machine stops at a token that the builder does not take, or at an arrow that the builder tells of. -/
theorem feedAll_error {ts : List Token} {settled : Option Nat} {halt : Parse.Halt}
    (h : (s.image settled).feedAll ts = .error halt) :
    ∃ before t after s', ts = before ++ t :: after ∧ s.run before = some s' ∧
      (s'.step t.lexeme t.start = none ∧ halt.offset = t.start ∨
        ∃ u, s'.step t.lexeme t.start = some (u, some halt.offset)) := by
  induction ts generalizing s settled with
  | nil => cases h
  | cons t ts ih =>
    have hfeed := feed_agrees s t settled
    unfold Parse.State.feedAll at h
    rcases hstep : s.step t.lexeme t.start with _ | ⟨u, _ | j⟩
    · simp only [hstep] at hfeed
      rw [hfeed] at h
      cases h
      exact ⟨[], t, ts, s, rfl, rfl, .inl ⟨hstep, rfl⟩⟩
    · simp only [hstep] at hfeed
      obtain ⟨settled', hfeed⟩ := hfeed
      rw [hfeed] at h
      obtain ⟨before, t', after, s', rfl, hrun, hstops⟩ := ih h
      refine ⟨t :: before, t', after, s', rfl, ?_, hstops⟩
      rw [State.run, hstep, Option.bind_some, hrun]
    · simp only [hstep] at hfeed
      rw [hfeed] at h
      cases h
      exact ⟨[], t, ts, s, rfl, rfl, .inr ⟨u, hstep⟩⟩

end LazyModules.Grammar
