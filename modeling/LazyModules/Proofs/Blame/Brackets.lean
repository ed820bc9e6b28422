import LazyModules.Report.Locate

/-!
# Stray closing brackets

A line may close brackets that it has not opened. The first closing bracket that does so is where the brackets of the
line, without those in strings, stop being the beginning of something properly nested.

**Results.** `completable_iff`: brackets are such a beginning if each closing one closes the latest that is open.
`strayFrom_take`: a scan of the front of a line finds what a scan of the whole line finds there.
`strayCloser_first_departure`: stray brackets are where nesting goes wrong for the first time.
-/
namespace LazyModules.Locate

/-! ## Nested brackets -/

def bracketPairs : List (Char × Char) := [('(', ')'), ('[', ']'), ('{', '}')]

inductive Nested : List Char → Prop
  | nil : Nested []
  | pair {opener closer : Char} {inner after : List Char} (hpair : (opener, closer) ∈ bracketPairs)
    (hinner : Nested inner) (hafter : Nested after) : Nested (opener :: (inner ++ closer :: after))

/-- Some brackets that more brackets can make properly nested. -/
def Completable (w : List Char) : Prop := ∃ v, Nested (w ++ v)

theorem closerOf_eq_some_iff {opener closer : Char} :
    closerOf opener = some closer ↔ (opener, closer) ∈ bracketPairs := by
  unfold closerOf bracketPairs
  grind

theorem isCloser_of_closerOf {opener closer : Char} (h : closerOf opener = some closer) : isCloser closer = true := by
  have hclosers : (bracketPairs.all fun p => isCloser p.2) = true := rfl
  exact List.all_eq_true.mp hclosers _ (closerOf_eq_some_iff.mp h)

/-- No bracket does both. -/
theorem closerOf_of_isCloser {c : Char} (hc : isCloser c = true) : closerOf c = none := by
  simp only [isCloser, Bool.or_eq_true, decide_eq_true_eq] at hc
  rcases hc with (rfl | rfl) | rfl <;> rfl

/-- The brackets that are to be closed after some more, the innermost first; none if one of these closes nothing. -/
def track : (pending : List Char) → List Char → Option (List Char)
  | pending, [] => some pending
  | pending, c :: w =>
    match closerOf c with
    | some closer => track (closer :: pending) w
    | none =>
      match pending with
      | p :: ps => if p = c then track ps w else none
      | [] => none

theorem track_opener {opener closer : Char} (h : closerOf opener = some closer) (pending w : List Char) :
    track pending (opener :: w) = track (closer :: pending) w := by
  simp [track, h]

theorem track_closer {c : Char} (h : closerOf c = none) (pending w : List Char) :
    track (c :: pending) (c :: w) = track pending w := by
  simp [track, h]

theorem track_append (pending w v : List Char) : track pending (w ++ v) = (track pending w).bind (track · v) := by
  fun_induction track pending w with
  | case1 pending => rfl
  | case2 pending c w closer hc ih => rw [List.cons_append, track_opener hc, ih]
  | case3 c w ps hc ih => rw [List.cons_append, track_closer hc, ih]
  | case4 c w hc p ps hp => simp [track, hc, hp]
  | case5 c w hc => simp [track, hc]

/-- Nested brackets leave what is to be closed as it was. -/
theorem track_nested {w : List Char} (h : Nested w) (pending : List Char) : track pending w = some pending := by
  induction h generalizing pending with
  | nil => rfl
  | @pair opener closer inner after hpair _ _ hinner hafter =>
    have hopener := closerOf_eq_some_iff.mpr hpair
    have hcloser := closerOf_of_isCloser (isCloser_of_closerOf hopener)
    rw [track_opener hopener, track_append, hinner, Option.bind_some, track_closer hcloser, hafter]

/-- Text that closes pending brackets one after the other, with nested brackets in between. -/
inductive Closing : (pending : List Char) → List Char → Prop
  | nested {w : List Char} (h : Nested w) : Closing [] w
  | next {p : Char} {ps w v : List Char} (hw : Nested w) (hv : Closing ps v) : Closing (p :: ps) (w ++ p :: v)

/-- A pair of brackets in front, with nested brackets inside. -/
theorem Closing.pair {opener closer : Char} {inner pending after : List Char}
    (hpair : closerOf opener = some closer) (hinner : Nested inner) (hafter : Closing pending after) :
    Closing pending (opener :: (inner ++ closer :: after)) := by
  have hmem := closerOf_eq_some_iff.mp hpair
  cases hafter with
  | nested h => exact .nested (.pair hmem hinner h)
  | @next p ps w v hw hv =>
    have hfront : opener :: (inner ++ closer :: (w ++ p :: v)) = (opener :: (inner ++ closer :: w)) ++ p :: v := by simp
    rw [hfront]
    exact .next (.pair hmem hinner hw) hv

/-- What leaves nothing to be closed has closed what was pending. -/
theorem closing_of_track {pending w : List Char} (h : track pending w = some []) : Closing pending w := by
  fun_induction track pending w with
  | case1 pending =>
    obtain rfl := Option.some.inj h
    exact .nested .nil
  | case2 pending c w closer hc ih =>
    cases ih h with
    | next hinner hafter => exact .pair hc hinner hafter
  | case3 c w hc ps ih => exact .next .nil (ih h)
  | case4 c w hc p ps hp => cases h
  | case5 c w hc => cases h

/-- What is pending can be closed by the closing brackets alone. -/
theorem track_self {pending : List Char} (h : ∀ p ∈ pending, isCloser p = true) : track pending pending = some [] := by
  induction pending with
  | nil => rfl
  | cons p ps ih =>
    rw [List.forall_mem_cons] at h
    rw [track_closer (closerOf_of_isCloser h.1), ih h.2]

theorem closers_of_track {pending w pending' : List Char} (h : track pending w = some pending')
    (hpending : ∀ p ∈ pending, isCloser p = true) : ∀ p ∈ pending', isCloser p = true := by
  fun_induction track pending w with
  | case1 pending =>
    obtain rfl := Option.some.inj h
    exact hpending
  | case2 pending c w closer hc ih => exact ih h (List.forall_mem_cons.mpr ⟨isCloser_of_closerOf hc, hpending⟩)
  | case3 c w hc ps ih => exact ih h (List.forall_mem_cons.mp hpending).2
  | case4 c w hc p ps hp => cases h
  | case5 c w hc => cases h

/-- Brackets can be completed if each that closes something closes the latest that is open. -/
theorem completable_iff (w : List Char) : Completable w ↔ track [] w ≠ none := by
  constructor
  · rintro ⟨v, hnested⟩ hnone
    have htrack := track_nested hnested []
    rw [track_append, hnone] at htrack
    cases htrack
  · intro hsome
    obtain ⟨pending, htrack⟩ := Option.ne_none_iff_exists'.mp hsome
    -- what is still to be closed completes the brackets
    refine ⟨pending, ?_⟩
    have hclosed : track [] (w ++ pending) = some [] := by
      rw [track_append, htrack, Option.bind_some, track_self (closers_of_track htrack (by simp))]
    cases closing_of_track hclosed with
    | nested h => exact h

/-! ## Strings -/

/-- What comes after the string whose opening quote stands before `cs`. A string may run to the end. -/
def afterString : List Char → List Char
  | [] => []
  | '"' :: cs => cs
  | '\\' :: _ :: cs => afterString cs
  | _ :: cs => afterString cs

theorem length_afterString_le (cs : List Char) : (afterString cs).length ≤ cs.length := by
  fun_induction afterString cs with
  | case1 => exact Nat.le_refl _
  | case2 cs => exact Nat.le_succ _
  | case3 c cs ih | case4 c cs _ _ ih => simp only [List.length_cons]; omega

/-- A line without its strings. -/
def unquoted : List Char → List Char
  | [] => []
  | c :: cs => if c = '"' then unquoted (afterString cs) else c :: unquoted cs
termination_by cs => cs.length
decreasing_by
  all_goals
    have := length_afterString_le cs
    simp only [List.length_cons]
    omega

/-- The brackets of a line that stand outside of strings. -/
def brackets (line : List Char) : List Char := (unquoted line).filter fun c => isOpener c || isCloser c

theorem brackets_quote (cs : List Char) : brackets ('"' :: cs) = brackets (afterString cs) := by
  simp [brackets, unquoted]

theorem brackets_cons {c : Char} (hc : c ≠ '"') (cs : List Char) :
    brackets (c :: cs) = if isOpener c || isCloser c then c :: brackets cs else brackets cs := by
  simp [brackets, unquoted, hc, List.filter_cons]

/-- Nothing inside a string matters. -/
theorem strayFrom_inside (pending cs : List Char) (i : Nat) :
    ∃ k, strayFrom .inside pending cs i = strayFrom .outside pending (afterString cs) k := by
  fun_induction afterString cs generalizing i with
  | case1 => exact ⟨i, rfl⟩
  | case2 cs => exact ⟨i + 1, rfl⟩
  | case3 c cs ih => exact ih (i + 2)
  | case4 c cs hquote hescape ih =>
    by_cases hc : c = '\\'
    · -- a backslash with nothing after it to escape
      subst hc
      cases cs with
      | nil => exact ⟨i, rfl⟩
      | cons d cs => exact absurd rfl (hescape d cs rfl)
    · simpa [strayFrom, hc, show c ≠ '"' from hquote] using ih (i + 1)

/-- A stray bracket is one that cannot be tracked. -/
theorem strayFrom_eq_none_iff (pending line : List Char) (i : Nat) :
    strayFrom .outside pending line i = none ↔ track pending (brackets line) ≠ none := by
  induction line using unquoted.induct generalizing pending i with
  | case1 => simp [strayFrom, brackets, unquoted, track]
  | case2 cs ih =>
    obtain ⟨k, hk⟩ := strayFrom_inside pending cs (i + 1)
    rw [brackets_quote, ← ih pending k, ← hk]
    rfl
  | case3 c cs hquote ih =>
    rw [brackets_cons hquote]
    simp only [strayFrom, if_neg hquote]
    cases hcloser : closerOf c with
    | some closer => simp [isOpener, hcloser, track, ih]
    | none =>
      by_cases hc : isCloser c = true
      · rw [if_pos (by simp [hc])]
        simp only [hc]
        cases pending with
        | nil => simp [track, hcloser]
        | cons p ps =>
          by_cases hp : p = c
          · simp [track, hcloser, hp, ih]
          · simp [track, hcloser, hp]
      · simp [isOpener, hcloser, hc, ih]

/-- A stray bracket is a closing one, from where the scan begins. -/
theorem closer_of_strayFrom {q : Quoting} {pending cs : List Char} {i j : Nat} (h : strayFrom q pending cs i = some j) :
    i ≤ j ∧ ∃ c ∈ cs[j - i]?, isCloser c = true := by
  fun_induction strayFrom q pending cs i <;> grind

/-- The scan of the front of a line finds what the whole scan finds there. -/
theorem strayFrom_take (q : Quoting) (pending cs : List Char) (i k : Nat) :
    strayFrom q pending (cs.take k) i = (strayFrom q pending cs i).filter (· < i + k) := by
  induction k generalizing q pending cs i with
  | zero =>
    cases h : strayFrom q pending cs i with
    | none => simp [strayFrom]
    | some j => simp [strayFrom, Option.filter, (closer_of_strayFrom h).1]
  | succ k ih =>
    cases cs with
    | nil => simp [strayFrom]
    | cons c cs =>
      have hshift : i + (k + 1) = i + 1 + k := by omega
      rw [List.take_succ_cons, hshift]
      cases q with
      | escaped | inside => simp only [strayFrom, ih]
      | outside =>
        -- a bracket that is stray here is within the front
        have hhere : i < i + 1 + k := by omega
        simp only [strayFrom, ih]
        split
        · rfl
        · cases closerOf c with
          | some closer => rfl
          | none =>
            by_cases hc : isCloser c = true
            · cases pending with
              | nil => simp [hc, Option.filter_some, hhere]
              | cons p ps => by_cases hp : p = c <;> simp [hc, hp, Option.filter_some, hhere]
            · simp [hc]

theorem strayCloser_take (l : List Char) (k : Nat) : strayCloser (l.take k) = (strayCloser l).filter (· < k) := by
  rw [strayCloser, strayFrom_take, Nat.zero_add]
  rfl

/-- A line without stray brackets has brackets that can be completed. -/
theorem strayCloser_eq_none_iff (l : List Char) : strayCloser l = none ↔ Completable (brackets l) := by
  rw [completable_iff, strayCloser, strayFrom_eq_none_iff]

/-- Stray closing brackets are the first departures from proper nesting. -/
theorem strayCloser_first_departure (line : List Char) :
    (strayCloser line = none ↔ Completable (brackets line)) ∧
    ∀ i, strayCloser line = some i ↔
      Completable (brackets (line.take i)) ∧ ¬ Completable (brackets (line.take (i + 1))) := by
  refine ⟨strayCloser_eq_none_iff line, fun i => ?_⟩
  rw [← strayCloser_eq_none_iff, ← strayCloser_eq_none_iff, strayCloser_take, strayCloser_take]
  cases strayCloser line with
  | none => simp
  | some j =>
    simp only [Option.some.injEq, Option.filter_some, decide_eq_true_eq]
    grind

example : strayCloser "f(\")]\", [x)".toList = some 10 := by decide

end LazyModules.Locate
