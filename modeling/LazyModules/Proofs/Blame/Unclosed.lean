import Mathlib.Data.List.DropRight
import LazyModules.Proofs.Lines.Reports
import LazyModules.Proofs.Blame.Brackets
import LazyModules.Proofs.Blame.Delimiters

/-!
# Where something is left open

A text that opens a bracket or a string and does not close it is blamed for it on its last line that shows something.
There the error is reported on a closing bracket that does not fit, or else behind the end of what the line shows.

**Results.** `lastShown_split`: the last line that shows something. `blamed_blamedPlace`: the place in that line.
`syntaxOffset_inside`: an error is reported inside of the text, where reading stopped or on that line.
-/
namespace LazyModules

namespace Text

/-- Trimming stops at the last character that is kept. -/
theorem trimEnd_of_mem {p : Char → Bool} {l : List Char} (h : ∃ c ∈ l, p c = false) :
    ∃ left c right, l = left ++ c :: right ∧ trimEnd p l = left ++ [c] ∧ p c = false ∧ ∀ d ∈ right, p d = true := by
  have htrim : trimEnd p l = l.rdropWhile p := rfl
  have hne : l.rdropWhile p ≠ [] := by
    intro hnil
    obtain ⟨c, hc, hkept⟩ := h
    rw [List.rdropWhile_eq_nil_iff.mp hnil c hc] at hkept
    cases hkept
  have hparts : l.rdropWhile p ++ l.rtakeWhile p = l := List.rdropWhile_append_rtakeWhile
  have hlast : (l.rdropWhile p).dropLast ++ [(l.rdropWhile p).getLast hne] = l.rdropWhile p :=
    List.dropLast_append_getLast hne
  refine ⟨_, _, l.rtakeWhile p, ?_, htrim.trans hlast.symm, ?_, fun d => List.mem_rtakeWhile_imp⟩
  · rw [← List.singleton_append, ← List.append_assoc, hlast, hparts]
  · exact Bool.eq_false_iff.mpr (List.rdropWhile_last_not p l hne)

end Text

namespace Locate

/-! ## The line that is blamed -/

/-- A text is `before ++ l ++ after`, and `l` is the last line of it that shows something. -/
structure LastLine (text before l after : List Char) : Prop where
  parts : text = before ++ l ++ after
  begins : before = [] ∨ before.getLast? = some '\n'
  ends : after = [] ∨ after.head? = some '\n'
  unbroken : '\n' ∉ l
  shows : ∃ c ∈ l, Text.isBlank c = false
  last : ∀ c ∈ after, Text.isBlank c = true

/-- A line in front of the text does not matter. -/
theorem LastLine.later {text before l after : List Char} (h : LastLine text before l after) (x : List Char) :
    LastLine (x ++ '\n' :: text) (x ++ '\n' :: before) l after where
  parts := by simp [h.parts]
  begins := by
    right
    rcases h.begins with rfl | hlast
    · simp
    · simp [List.getLast?_cons, hlast]
  ends := h.ends
  unbroken := h.unbroken
  shows := h.shows
  last := h.last

/-- The last line that shows something is found, unless the text shows nothing. -/
theorem lastShown_split (text : List Char) :
    (∀ c ∈ text, Text.isBlank c = true) ∧ lastShown (Text.split '\n' text) 0 = none ∨
    ∃ before l after, LastLine text before l after ∧ lastShown (Text.split '\n' text) 0 = some (before.length, l) := by
  induction text using Text.lines_induction with
  | last x hx =>
    rw [Text.split_of_not_mem hx, lastShown_cons]
    by_cases hblank : Text.isBlankRun x = true
    · exact .inl ⟨List.all_eq_true.mp hblank, by simp [lastShown, hblank]⟩
    · refine .inr ⟨[], x, [], ⟨by simp, .inl rfl, .inl rfl, hx, ?_, by simp⟩, by simp [lastShown, hblank]⟩
      simpa [Text.isBlankRun] using hblank
  | more x y hx ih =>
    rw [Text.split_line hx, lastShown_cons]
    rcases ih with ⟨hall, hnone⟩ | ⟨before, l, after, hline, hfound⟩
    · by_cases hblank : Text.isBlankRun x = true
      · refine .inl ⟨?_, by simp [hnone, hblank]⟩
        exact List.forall_mem_append.mpr ⟨List.all_eq_true.mp hblank, List.forall_mem_cons.mpr ⟨by decide, hall⟩⟩
      · refine .inr ⟨[], x, '\n' :: y, ⟨by simp, .inl rfl, .inr rfl, hx, ?_, ?_⟩, by simp [hnone, hblank]⟩
        · simpa [Text.isBlankRun] using hblank
        · exact List.forall_mem_cons.mpr ⟨by decide, hall⟩
    · have hlength : (x ++ '\n' :: before).length = x.length + 1 + before.length := by
        rw [List.length_append, List.length_cons]
        omega
      exact .inr ⟨_, l, after, hline.later x, by rw [hfound, hlength]; rfl⟩

theorem isBlank_of_isOpener {c : Char} (hc : isOpener c = true) : Text.isBlank c = false := by
  have hopeners : (bracketPairs.all fun p => Text.isBlank p.1 == false) = true := rfl
  obtain ⟨closer, hcloser⟩ := Option.isSome_iff_exists.mp hc
  exact beq_iff_eq.mp (List.all_eq_true.mp hopeners _ (closerOf_eq_some_iff.mp hcloser))

/-- What leaves something open shows something. -/
theorem shows_of_open {rest : List Char} (h : (unclosed rest || unterminated rest) = true) :
    ∃ c ∈ rest, Text.isBlank c = false := by
  rcases Bool.or_eq_true_iff.mp h with hunclosed | hunterminated
  · have hpos : 0 < rest.countP isOpener := Nat.zero_lt_of_lt (of_decide_eq_true hunclosed)
    obtain ⟨c, hmem, hc⟩ := List.countP_pos_iff.mp hpos
    exact ⟨c, hmem, isBlank_of_isOpener hc⟩
  · have hodd : countQuotes none rest % 2 = 1 := of_decide_eq_true hunterminated
    have hquote : '"' ∈ rest := by
      by_contra hquote
      rw [countQuotes_of_not_mem hquote] at hodd
      cases hodd
    exact ⟨_, hquote, by decide⟩

/-- A line is cut in two where it is blamed: on a stray closing bracket, or behind the last character that is neither
space nor tab if there is none or a string has no end. -/
inductive Blamed (unterminated : Bool) : (left right : List Char) → Prop
  | closer {left right : List Char} {c : Char} (hstray : strayCloser (left ++ c :: right) = some left.length)
    (hended : unterminated = false) (hc : isCloser c = true) : Blamed unterminated left (c :: right)
  | lineEnd {left right : List Char} {c : Char} (hend : AtLineEnd (left ++ c :: right) unterminated)
    (hc : c ≠ ' ' ∧ c ≠ '\t') (hright : ∀ d ∈ right, d = ' ' ∨ d = '\t') : Blamed unterminated (left ++ [c]) right

theorem blamed_closer {l : List Char} {i : Nat} (hstray : strayCloser l = some i) :
    ∃ left right, l = left ++ right ∧ i = left.length ∧ Blamed false left right := by
  obtain ⟨-, c, hc, hcloser⟩ := closer_of_strayFrom hstray
  obtain ⟨hlt, rfl⟩ := List.getElem?_eq_some_iff.mp hc
  rw [Nat.sub_zero] at hlt
  have hparts : l = l.take i ++ l[i] :: l.drop (i + 1) := by rw [← List.drop_eq_getElem_cons hlt, List.take_append_drop]
  have hlength : i = (l.take i).length := by rw [List.length_take, Nat.min_eq_left hlt.le]
  refine ⟨_, _, hparts, hlength, .closer ?_ rfl hcloser⟩
  rw [← hparts, ← hlength, hstray]

theorem blamed_lineEnd {l : List Char} {u : Bool} (hl : ∃ c ∈ l, Text.isBlank c = false) (hend : AtLineEnd l u) :
    ∃ left right, l = left ++ right ∧ (Text.trimEnd (fun c => c = ' ' || c = '\t') l).length = left.length ∧
      Blamed u left right := by
  have hshown : ∃ c ∈ l, (c = ' ' || c = '\t') = false := by
    obtain ⟨c, hc, hblank⟩ := hl
    refine ⟨c, hc, Bool.eq_false_iff.mpr fun hspace => ?_⟩
    rcases Bool.or_eq_true_iff.mp hspace with hc | hc <;> rw [of_decide_eq_true hc] at hblank <;> cases hblank
  obtain ⟨left, c, right, rfl, htrim, hc, hright⟩ := Text.trimEnd_of_mem hshown
  refine ⟨left ++ [c], right, by simp, by rw [htrim], .lineEnd hend ?_ ?_⟩
  · simpa using hc
  · simpa using hright

/-- A line that shows something is blamed at one of the two places. -/
theorem blamed_blamedPlace {l : List Char} (hl : ∃ c ∈ l, Text.isBlank c = false) (u : Bool) :
    ∃ left right, l = left ++ right ∧ blamedPlace l u = left.length ∧ Blamed u left right := by
  unfold blamedPlace
  cases hstray : strayCloser l with
  | none => exact blamed_lineEnd hl (.inl hstray)
  | some i =>
    cases u with
    | true => exact blamed_lineEnd hl (.inr rfl)
    | false => exact blamed_closer hstray

/-- What counts as unread is a part of the text, if all that was left is. -/
theorem unread_suffix {text rest : List Char} {shortest : Option (List Char)} (hrest : rest <:+ text)
    (hshortest : ∀ s ∈ shortest, s <:+ text) : unread rest shortest <:+ text := by
  unfold unread
  split
  · exact hrest
  · exact hrest
  · exact hshortest _ rfl

/-- An error is reported inside of the text. It is where reading stopped, or else on the last line that shows
something. -/
theorem syntaxOffset_inside {text rest : List Char} {shortest : Option (List Char)} (hrest : rest <:+ text)
    (hshortest : ∀ s ∈ shortest, s <:+ text) :
    ∃ p : Nat, syntaxOffset text rest shortest = p ∧ p ≤ text.length ∧
      if unclosed rest || unterminated rest then
        ∃ before left right after, LastLine text before (left ++ right) after ∧ Blamed (unterminated rest) left right ∧
          p = before.length + left.length
      else text.drop p = unread rest shortest := by
  rw [syntaxOffset_eq]
  by_cases hopen : (unclosed rest || unterminated rest) = true
  · rw [if_pos hopen]
    simp only [if_pos hopen]
    rcases lastShown_split text with ⟨hblank, -⟩ | ⟨before, l, after, hline, hfound⟩
    · obtain ⟨c, hc, hshows⟩ := shows_of_open hopen
      rw [hblank c (hrest.subset hc)] at hshows
      cases hshows
    · obtain ⟨left, right, rfl, hplace, hblamed⟩ := blamed_blamedPlace hline.shows (unterminated rest)
      rw [hfound]
      refine ⟨before.length + left.length, by simp [hplace], ?_, before, left, right, after, hline, hblamed, rfl⟩
      simp only [hline.parts, List.length_append]
      omega
  · rw [if_neg hopen]
    simp only [if_neg hopen]
    obtain ⟨front, hfront⟩ := unread_suffix hrest hshortest
    refine ⟨front.length, ?_, ?_, ?_⟩
    · rw [← hfront, List.length_append]
      omega
    · rw [← hfront, List.length_append]
      omega
    · rw [← hfront, List.drop_left]

/-- A bracket is closed by one that does not fit it, and a blank line comes after. -/
theorem syntaxOffset_inside_stray :
    let text := "y = 1\nx = f(\n  1, [2)\n \n".toList
    let rest := text.drop 6
    let shortest := some (text.drop 23)
    rest <:+ text ∧ (∀ s ∈ shortest, s <:+ text) ∧ syntaxOffset text rest shortest = 20 ∧
      ∃ p : Nat, syntaxOffset text rest shortest = p ∧ p ≤ text.length ∧
        ∃ before left right after, LastLine text before (left ++ right) after ∧ Blamed (unterminated rest) left right ∧
          p = before.length + left.length := by
  intro text rest shortest
  have hrest : rest <:+ text := List.drop_suffix ..
  have hshortest : ∀ s ∈ shortest, s <:+ text := by
    intro s hs
    obtain rfl := Option.some.inj hs
    exact List.drop_suffix ..
  have hopen : (unclosed rest || unterminated rest) = true := by decide
  obtain ⟨p, hp, hle, hplace⟩ := syntaxOffset_inside hrest hshortest
  rw [if_pos hopen] at hplace
  exact ⟨hrest, hshortest, by decide, p, hp, hle, hplace⟩

end Locate

end LazyModules
