import Mathlib.Data.List.DropRight
import LazyModules.Proofs.Scan.Visible

/-!
# What an opener continues

`(`, `[` and `-` have two readings. The scan decides by the characters since the last line feed: if they show
nothing, the opener begins a phrase. This is not the same as to ask for a line feed after the token before. A
comment shows something, and CR, VT and FF end a comment and no line; so an opener that stands after such a
comment continues the phrase of an earlier line.

**Results.** `opener_continues_iff`: an opener continues if and only if the token before it ends a value, and
between the two there is no line feed, or a comment after the last one.
-/
namespace LazyModules

/-- What comes after the last line feed. -/
def Text.lastLine (cs : List Char) : List Char := cs.rtakeWhile (· ≠ '\n')

namespace Scan

/-! ## Lines that show nothing -/

theorem freshAfter_append (fresh : Bool) (cs ds : List Char) :
    freshAfter fresh (cs ++ ds) = freshAfter (freshAfter fresh cs) ds :=
  List.foldl_append

/-- On a line that shows something already, only a line feed makes a difference, and what comes after the last. -/
theorem freshAfter_false (cs : List Char) :
    freshAfter false cs = true ↔ '\n' ∈ cs ∧ Text.isBlankRun (Text.lastLine cs) = true := by
  induction cs using List.reverseRecOn with
  | nil => simp [freshAfter]
  | append_singleton cs c ih =>
    have hlast : freshAfter false (cs ++ [c]) = (decide (c = '\n') || (freshAfter false cs && Text.isBlank c)) := by
      rw [freshAfter_append]
      rfl
    rw [hlast]
    by_cases hc : c = '\n'
    · subst hc
      simp [Text.lastLine, Text.isBlankRun]
    · have hline : Text.lastLine (cs ++ [c]) = Text.lastLine cs ++ [c] :=
        List.rtakeWhile_concat_pos _ _ _ (by simp [hc])
      have hblank : Text.isBlankRun (Text.lastLine cs ++ [c]) = (Text.isBlankRun (Text.lastLine cs) && Text.isBlank c) := by
        simp [Text.isBlankRun]
      simp only [hc, decide_false, Bool.false_or, hline, hblank, Bool.and_eq_true, ih, List.mem_append,
        List.mem_singleton, Ne.symm hc, or_false, and_assoc]

theorem isBlank_eq_false {c : Char} (hc : '!' ≤ c ∧ c ≤ '~') : Text.isBlank c = false := by
  have hlow : 33 ≤ c.toNat := hc.1
  have hhigh : c.toNat ≤ 126 := hc.2
  simp only [Text.isBlank, Text.blankRanges, List.any_cons, List.any_nil, Bool.or_false, Bool.or_eq_false_iff,
    Bool.and_eq_false_iff, decide_eq_false_iff_not]
  omega

theorem isBlank_of_isSpace {c : Char} (hc : isSpace c = true) : Text.isBlank c = true := by
  simp only [isSpace, Bool.or_eq_true, Bool.and_eq_true, decide_eq_true_eq] at hc
  rcases hc with ⟨hlow, hhigh⟩ | rfl
  · have hlow : 9 ≤ c.toNat := hlow
    have hhigh : c.toNat ≤ 13 := hhigh
    simp [Text.isBlank, Text.blankRanges, hlow, hhigh]
  · decide

/-- A token shows something on its line. -/
theorem Takes.freshAfter_eq {text : List Char} {l : Layout} {p : Piece} {w : List Char} {x : Lexeme}
    (h : Takes text l p w (some x)) (fresh : Bool) : freshAfter fresh w = false := by
  obtain ⟨hline, c, cs, rfl, hc⟩ := h.visible
  obtain ⟨hlf, hline⟩ := not_or.mp (fun h => hline (List.mem_cons.mpr h))
  have hfirst : freshAfter fresh (c :: cs) = freshAfter false cs := by
    rw [← List.singleton_append, freshAfter_append]
    simp [freshAfter, isBlank_eq_false hc, Ne.symm hlf]
  rw [hfirst, ← Bool.not_eq_true, freshAfter_false]
  exact fun h => hline h.1

/-! ## Gaps -/

/-- Blanks and comments. -/
inductive Idle : List Char → Prop where
  | nil : Idle []
  | blank {gap w : List Char} (h : Idle gap) (hw : ∀ c ∈ w, isSpace c = true) : Idle (gap ++ w)
  | comment {gap w : List Char} (h : Idle gap) (hw : ∀ c ∈ w, isLineEnd c = false) : Idle (gap ++ '#' :: w)

theorem lastLine_append (cs ds : List Char) :
    Text.lastLine (cs ++ ds) = if '\n' ∈ ds then Text.lastLine ds else Text.lastLine cs ++ ds := by
  induction ds using List.reverseRecOn with
  | nil => simp
  | append_singleton ds d ih =>
    rw [← List.append_assoc]
    by_cases hd : d = '\n'
    · subst hd
      simp [Text.lastLine]
    · have hline (cs : List Char) : Text.lastLine (cs ++ [d]) = Text.lastLine cs ++ [d] :=
        List.rtakeWhile_concat_pos _ _ _ (by simp [hd])
      rw [hline, hline, ih]
      simp only [List.mem_append, List.mem_singleton, Ne.symm hd, or_false]
      split
      · rfl
      · rw [List.append_assoc]

/-- The last line of a gap shows nothing, or a comment. -/
theorem Idle.isBlankRun_iff {gap : List Char} (h : Idle gap) :
    Text.isBlankRun (Text.lastLine gap) = true ↔ '#' ∉ Text.lastLine gap := by
  have hspaces {w : List Char} (hw : ∀ c ∈ w, isSpace c = true) : Text.isBlankRun w = true ∧ '#' ∉ w := by
    refine ⟨List.all_eq_true.mpr fun c hc => isBlank_of_isSpace (hw c hc), fun hmem => ?_⟩
    cases hw '#' hmem
  induction h with
  | nil => simp [Text.lastLine, Text.isBlankRun]
  | @blank gap w h hw ih =>
    rw [lastLine_append]
    split
    · have hlast := hspaces (w := Text.lastLine w) fun c hc => hw c (List.rtakeWhile_suffix _ w |>.mem hc)
      simp only [hlast, not_false_eq_true]
    · have hblank : Text.isBlankRun (Text.lastLine gap ++ w) = Text.isBlankRun (Text.lastLine gap) := by
        simp only [Text.isBlankRun, List.all_append]
        rw [show w.all Text.isBlank = true from (hspaces hw).1, Bool.and_true]
      rw [hblank, List.mem_append, not_or, and_iff_left (hspaces hw).2]
      exact ih
  | @comment gap w h hw ih =>
    have hline : '\n' ∉ '#' :: w := by
      intro hmem
      rcases List.mem_cons.mp hmem with hmem | hmem
      · cases hmem
      · cases hw '\n' hmem
    have hmark : '#' ∈ Text.lastLine gap ++ '#' :: w := by simp
    rw [lastLine_append, if_neg hline]
    refine ⟨fun hblank => ?_, fun hnot => (hnot hmark).elim⟩
    cases List.all_eq_true.mp hblank '#' hmark

/-- What stands between a token and a later place. -/
def Token.gap (text : List Char) (t : Token) (offset : Nat) : List Char := (text.take offset).drop (Token.stop text t)

variable {text : List Char} {l : Layout} {ts : List Token} {t : Token}

/-- After a token comes a gap, and whether the line shows something is up to the gap. -/
theorem Passes.gap (h : Passes text l ts) (ht : ts.getLast? = some t) :
    Token.stop text t ≤ l.offset ∧ Idle (Token.gap text t l.offset) ∧ l.fresh = freshAfter false (Token.gap text t l.offset) := by
  induction h generalizing t with
  | start => cases ht
  | @step l ts p w said h htakes ih =>
    cases said with
    | none =>
      rw [show l.said none = [] from rfl, List.append_nil] at ht
      obtain ⟨hle, hidle, hfresh⟩ := ih ht
      have hgap : Token.gap text t (l.advance none w).offset = Token.gap text t l.offset ++ w := by
        rw [Token.gap, htakes.take_eq, List.drop_append_of_le_length, Token.gap]
        rw [List.length_take, Nat.min_eq_left h.offset_le]
        exact hle
      rw [hgap]
      refine ⟨Nat.le_add_right_of_le hle, ?_, ?_⟩
      · rcases htakes.silent with hw | ⟨cs, rfl, hcs⟩
        · exact hidle.blank hw
        · exact hidle.comment hcs
      · rw [freshAfter_append, ← hfresh]
        rfl
    | some x =>
      rw [show l.said (some x) = [⟨x, l.offset⟩] from rfl, List.getLast?_concat] at ht
      obtain rfl := Option.some.inj ht
      have hgap : Token.gap text ⟨x, l.offset⟩ (l.advance (some x) w).offset = [] := by
        rw [Token.gap, htakes.stop_eq, List.drop_eq_nil_iff, List.length_take]
        exact Nat.min_le_left _ _
      rw [hgap, htakes.stop_eq]
      exact ⟨Nat.le_refl _, .nil, htakes.freshAfter_eq l.fresh⟩

/-! ## Openers -/

theorem text_ne_of_piece? {c : Char} {cs : List Char} {m : Mark} {n : Nat} (h : piece? c cs = some (.mark m, n)) (o : Opener) :
    m.text ≠ o.opening.text := by
  generalize hp : Piece.mark m = p at h
  cases found_of_piece? h with
  | blank | comment | number | string | word => cases hp
  | pair hcs hm =>
    cases hp
    unfold pair? at hm
    split at hm <;> cases hm <;> cases o <;> decide
  | single hm =>
    subst hp
    unfold single? at hm
    split at hm <;> cases hm <;> cases o <;> decide

/-- A mark that is spelled as an opener is the reading of the opener at its place. -/
theorem Takes.eq_opener {p : Piece} {w : List Char} {m : Mark} {o : Opener} (h : Takes text l p w (some (.mark m)))
    (hm : m.text = o.opening.text) : m = l.opener o := by
  obtain ⟨c, cs, rest, rfl, -, hpiece⟩ := h.cut
  have hmeaning := h.meaning
  cases p with
  | blank | comment => cases hmeaning
  | number | string =>
    simp only [lexeme?] at hmeaning
    split at hmeaning <;> cases hmeaning
  | word =>
    have hword : wordLexeme (String.ofList (c :: cs)) = .mark m := Option.some.inj (Except.ok.inj hmeaning)
    unfold wordLexeme at hword
    repeat' split at hword
    all_goals cases hword <;> cases o <;> exact absurd hm (by decide)
  | mark m' =>
    cases hmeaning
    exact (text_ne_of_piece? hpiece o hm).elim
  | opener o' =>
    cases hmeaning
    have hspelled : (l.opener o').text = o'.opening.text := by
      unfold Layout.opener
      split <;> cases o' <;> rfl
    have hsame : o' = o := by
      rw [hspelled] at hm
      cases o' <;> cases o <;> first | rfl | exact absurd hm (by decide)
    rw [hsame]

/-- The rule of the layout. An opener at `start` continues a phrase if the token before it ends a value, and
between the two there is no line feed, or a comment after the last line feed. -/
def Continues (text : List Char) (before : List Token) (start : Nat) : Prop :=
  ∃ t, before.getLast? = some t ∧ t.lexeme.endsValue = true ∧
    ('\n' ∉ Token.gap text t start ∨ '#' ∈ Text.lastLine (Token.gap text t start))

/-- The scan remembers what it takes to follow the rule. -/
theorem Passes.continues_iff (h : Passes text l ts) :
    (l.previous.any Lexeme.endsValue && !l.fresh) = true ↔ Continues text ts l.offset := by
  rw [Bool.and_eq_true, h.previous_eq, Continues]
  cases ht : ts.getLast? with
  | none => simp
  | some t =>
    obtain ⟨-, hidle, hfresh⟩ := h.gap ht
    have hshown : (!l.fresh) = true ↔
        '\n' ∉ Token.gap text t l.offset ∨ '#' ∈ Text.lastLine (Token.gap text t l.offset) := by
      rw [Bool.not_eq_true', ← Bool.not_eq_true, hfresh, freshAfter_false, hidle.isBlankRun_iff, not_and_or, not_not]
    simp [hshown]

/-- An opener has the reading that continues a phrase where the rule says so, and the other reading elsewhere. -/
theorem opener_continues_iff {before after : List Token} {m : Mark} {start : Nat} {o : Opener}
    (htokens : (scan text).tokens = before ++ ⟨.mark m, start⟩ :: after) (hm : m.text = o.opening.text) :
    (m = o.continuing ↔ Continues text before start) ∧ (m = o.opening ↔ ¬ Continues text before start) := by
  obtain ⟨l, p, w, hpasses, rfl, htakes⟩ := passes_of_tokens htokens
  have hcontinues := hpasses.continues_iff
  have hne : o.continuing ≠ o.opening := by cases o <;> decide
  rw [← hcontinues, htakes.eq_opener hm, Layout.opener]
  split
  · rename_i h
    simp [h, hne]
  · rename_i h
    simp [h, hne.symm]

/-- A call, and a group on a line of its own after a comment. -/
theorem opener_continues_iff_call :
    Continues "f (1)".toList [⟨.name "f", 0⟩] 2 ∧ ¬ Continues "f # g\n(1)".toList [⟨.name "f", 0⟩] 6 := by
  have hcall : (scan "f (1)".toList).tokens =
      [⟨.name "f", 0⟩] ++ ⟨.mark .apply, 2⟩ :: [⟨.literal (.int 1), 3⟩, ⟨.mark .closeParen, 4⟩] := rfl
  have hgroup : (scan "f # g\n(1)".toList).tokens =
      [⟨.name "f", 0⟩] ++ ⟨.mark .openParen, 6⟩ :: [⟨.literal (.int 1), 7⟩, ⟨.mark .closeParen, 8⟩] := rfl
  exact ⟨(opener_continues_iff (o := .paren) hcall rfl).1.mp rfl, (opener_continues_iff (o := .paren) hgroup rfl).2.mp rfl⟩

/-- A comment that CR ends: the opener after it is on another line than the name, and is read as a call of it. -/
theorem opener_continues_from_earlier_line :
    let text := "x\n#\r(1)".toList
    (scan text).tokens = [⟨.name "x", 0⟩] ++ ⟨.mark .apply, 4⟩ :: [⟨.literal (.int 1), 5⟩, ⟨.mark .closeParen, 6⟩] ∧
      '\n' ∈ Token.gap text ⟨.name "x", 0⟩ 4 :=
  ⟨rfl, by decide⟩

end Scan

end LazyModules
