import LazyModules.Report.Locate
import LazyModules.Proofs.Grammar.Settled
import LazyModules.Proofs.Grammar.Arrows

/-!
# Where a refused text is blamed

A reading that stops hands over what is unread of the statement in progress, and what is unread in all. The report points
at the front of the second, unless something was opened and never closed. A text that ends too soon leaves the second
empty, an empty rest counts as none, and the report points at the front of the first.

**Results.** `stopped_at`: where every refused text stops. `syntaxOffset_refused`: if nothing is open, the report points
at the place where reading stopped, except when that is the end of the text; then it points at the first token of the
statement in progress, and never at the end.
-/
namespace LazyModules

open Grammar (Ceases MisplacedArrow ceases_at_token ceases_at_block ceases_at_end)

namespace Reading

variable {text : String}

/-- Where a reading can stop: where the text ceases to be the front of a module, or at an arrow after the wrong
parentheses. If it stops at the end of the text, a statement has begun. -/
structure StopsAt (text : String) (offset : Nat) (settled : Option Nat) : Prop where
  le : offset ≤ text.length
  place : Ceases text offset ∨ MisplacedArrow (Scan.scan text.toList).tokens offset
  begun : offset = text.length → ∃ k < text.length, settled = some k ∧
    (k = 0 ∨ ∃ t ∈ (Scan.scan text.toList).tokens, t.start = k)

theorem start_lt {t : Token} (ht : t ∈ (Scan.scan text.toList).tokens) : t.start < text.length := by
  rw [← String.length_toList]
  exact (Scan.scan_within text.toList).start_lt t ht

theorem StopsAt.of_lt {offset : Nat} {settled : Option Nat} (hlt : offset < text.length)
    (hplace : Ceases text offset ∨ MisplacedArrow (Scan.scan text.toList).tokens offset) :
    StopsAt text offset settled :=
  ⟨Nat.le_of_lt hlt, hplace, fun h => absurd h (Nat.ne_of_lt hlt)⟩

theorem StopsAt.of_misplaced {offset : Nat} {settled : Option Nat}
    (h : MisplacedArrow (Scan.scan text.toList).tokens offset) : StopsAt text offset settled :=
  .of_lt (start_lt h.mem) (.inr h)

/-- At the end of a text that ends too soon, the statement in progress has begun before the end. -/
theorem StopsAt.of_ended {settled : Option Nat} (hceases : Ceases text text.length)
    (hnonempty : (Scan.scan text.toList).tokens ≠ []) {k : Nat} (hk : settled = some k)
    (hplace : k = 0 ∨ ∃ t ∈ (Scan.scan text.toList).tokens, t.start = k) : StopsAt text text.length settled := by
  refine ⟨Nat.le_refl _, .inl hceases, fun _ => ⟨k, ?_, hk, hplace⟩⟩
  rcases hplace with rfl | ⟨t, ht, rfl⟩
  · obtain ⟨t, ts, htokens⟩ := List.exists_cons_of_ne_nil hnonempty
    exact Nat.zero_lt_of_lt (start_lt (t := t) (by simp [htokens]))
  · exact start_lt ht

/-- Every reading that refuses its text stops at such a place. -/
theorem stopped_at (hrefused : (ofText text).verdict = .refused) :
    ∃ offset settled, ofText text = stopped text.toList offset settled ∧ StopsAt text offset settled := by
  rw [ofText] at hrefused ⊢
  cases hfeed : Parse.State.start.feedAll (Scan.scan text.toList).tokens with
  | error halt =>
    rw [← Grammar.image_start] at hfeed
    obtain ⟨before, t, after, s, htokens, hrun, hstops⟩ := Grammar.feedAll_error hfeed
    refine ⟨halt.offset, halt.settled, rfl, ?_⟩
    rcases hstops with ⟨hstep, hoffset⟩ | ⟨u, hstep⟩
    · rw [hoffset]
      exact .of_lt (start_lt (t := t) (by simp [htokens])) (.inl (ceases_at_token htokens hrun hstep))
    · refine .of_misplaced ?_
      rw [htokens]
      exact (Grammar.misplaced_of_run hrun (Grammar.firstSlip_of_step hstep)).append [] (t :: after)
  | ok u =>
    simp only [hfeed] at hrefused
    have hbegun {halt : Parse.Halt} (h : u.finish text.toList.length = .error halt) := Parse.State.begun_of_finish hfeed h
    rw [← Grammar.image_start] at hfeed
    obtain ⟨s, settled, hrun, -, rfl⟩ := Grammar.run_of_feedAll hfeed Grammar.lawful_start
    cases hstop : (Scan.scan text.toList).stop with
    | blocked offset =>
      have hinside : offset < text.length := by
        rw [← String.length_toList]
        exact (Scan.scan_within text.toList).blocked_lt hstop
      exact ⟨offset, settled, rfl, .of_lt hinside (.inl (ceases_at_block hrun hstop))⟩
    | fault f =>
      simp only [hstop] at hrefused
      cases hrefused
    | ended =>
      simp only [hstop] at hrefused ⊢
      have hagrees := Grammar.finish_agrees s settled text.toList.length
      rcases hfinish : s.finish with _ | ⟨d, _ | k⟩
      · simp only [hfinish] at hagrees
        obtain ⟨hnonempty, k, hk, hplace⟩ := hbegun hagrees
        rw [hagrees, String.length_toList]
        exact ⟨text.length, settled, rfl, .of_ended (ceases_at_end hrun hstop hfinish) hnonempty hk hplace⟩
      · simp only [hfinish] at hagrees
        rw [hagrees] at hrefused
        cases hrefused
      · simp only [hfinish] at hagrees
        rw [hagrees]
        exact ⟨k, settled, rfl, .of_misplaced (Grammar.misplaced_of_run hrun (Grammar.firstSlip_of_finish hfinish))⟩

end Reading

namespace Locate

/-- If nothing is open, the report points at the front of what is unread. -/
theorem syntaxOffset_of_closed {rest : List Char} (hbrackets : rest.countP isOpener ≤ rest.countP isCloser)
    (hquotes : countQuotes none rest % 2 = 0) (text : List Char) (shortest : List Char) :
    syntaxOffset text rest (some shortest) = text.length - (if shortest = [] then rest else shortest).length := by
  have hunclosed : unclosed rest = false := decide_eq_false (Nat.not_lt.mpr hbrackets)
  have hunterminated : unterminated rest = false := decide_eq_false (by omega)
  cases shortest <;> simp [syntaxOffset, hunclosed, hunterminated]

/-- The place of a syntax error when nothing is open: where the text ceases to be the front of a module, or an arrow
after the wrong parentheses, if that lies before the end of the text. At the end, it is the first token of the statement
in progress, or the front of the text. -/
theorem syntaxOffset_refused {text : String} (hrefused : (Reading.ofText text).verdict = .refused)
    (hbrackets : (Reading.ofText text).rest.toList.countP isOpener ≤ (Reading.ofText text).rest.toList.countP isCloser)
    (hquotes : countQuotes none (Reading.ofText text).rest.toList % 2 = 0) :
    let r := Reading.ofText text
    let position := syntaxOffset text.toList r.rest.toList (r.shortest.map String.toList)
    ∃ offset ≤ text.length, r.shortest = some (String.ofList (text.toList.drop offset)) ∧
      (Ceases text offset ∨ MisplacedArrow (Scan.scan text.toList).tokens offset) ∧
      (offset < text.length → position = offset) ∧
      (offset = text.length → ∃ start < text.length, position = start ∧
        r.rest = String.ofList (text.toList.drop start) ∧
        (start = 0 ∨ ∃ t ∈ (Scan.scan text.toList).tokens, t.start = start)) := by
  intro r position
  obtain ⟨offset, settled, hstopped, hle, hplace, hend⟩ := Reading.stopped_at hrefused
  have hlength : text.toList.length = text.length := String.length_toList
  have hshortest : r.shortest = some (String.ofList (text.toList.drop offset)) := by
    show (Reading.ofText text).shortest = _
    rw [hstopped]
    rfl
  have hrest : r.rest = String.ofList (text.toList.drop (min (settled.getD offset) offset)) := by
    show (Reading.ofText text).rest = _
    rw [hstopped]
    rfl
  have hposition : position = text.toList.length -
      (if text.toList.drop offset = [] then r.rest.toList else text.toList.drop offset).length := by
    show syntaxOffset _ _ (r.shortest.map String.toList) = _
    rw [hshortest, Option.map_some, String.toList_ofList]
    exact syntaxOffset_of_closed hbrackets hquotes _ _
  refine ⟨offset, hle, hshortest, hplace, fun hinside => ?_, fun hatEnd => ?_⟩
  · rw [hposition, if_neg (by rw [List.drop_eq_nil_iff]; omega), List.length_drop]
    omega
  · obtain ⟨start, hstart, rfl, hbegins⟩ := hend hatEnd
    rw [Option.getD_some, Nat.min_eq_left (by omega)] at hrest
    refine ⟨start, hstart, ?_, hrest, hbegins⟩
    rw [hposition, if_pos (by rw [List.drop_eq_nil_iff]; omega), hrest, String.toList_ofList, List.length_drop]
    omega

/-- A bracket that closes nothing is blamed itself. -/
theorem syntaxOffset_refused_stray :
    let r := Reading.ofText "f = )"
    r.verdict = .refused ∧ r.rest.toList.countP isOpener ≤ r.rest.toList.countP isCloser ∧
      countQuotes none r.rest.toList % 2 = 0 ∧
      syntaxOffset "f = )".toList r.rest.toList (r.shortest.map String.toList) = 4 := by
  have hrefused : (Reading.ofText "f = )").verdict = .refused := rfl
  have hbrackets : (Reading.ofText "f = )").rest.toList.countP isOpener ≤
      (Reading.ofText "f = )").rest.toList.countP isCloser := by decide
  have hquotes : countQuotes none (Reading.ofText "f = )").rest.toList % 2 = 0 := rfl
  obtain ⟨offset, hle, hshortest, -, hposition, -⟩ := syntaxOffset_refused hrefused hbrackets hquotes
  have hunread : [')'] = "f = )".toList.drop offset := by
    rw [← String.toList_ofList (l := "f = )".toList.drop offset)]
    exact congrArg String.toList (Option.some.inj hshortest)
  obtain rfl : offset = 4 := by
    have hlength := congrArg List.length hunread
    have hfive : "f = )".toList.length = 5 := rfl
    rw [List.length_drop, List.length_singleton] at hlength
    omega
  exact ⟨hrefused, hbrackets, hquotes, hposition (by decide)⟩

/-- A declaration that lacks its expression stops at the end of the text, and is blamed at the front of it. -/
theorem syntaxOffset_misses_end :
    let r := Reading.ofText "x = "
    r.verdict = .refused ∧ r.rest.toList.countP isOpener ≤ r.rest.toList.countP isCloser ∧
      countQuotes none r.rest.toList % 2 = 0 ∧ r.shortest = some "" ∧
      syntaxOffset "x = ".toList r.rest.toList (r.shortest.map String.toList) = 0 :=
  ⟨rfl, by decide, rfl, rfl, rfl⟩

end Locate

end LazyModules
