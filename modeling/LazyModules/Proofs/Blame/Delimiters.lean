import LazyModules.Proofs.Scan.Pieces
import LazyModules.Proofs.Grammar.Completed
import LazyModules.Proofs.Blame.Refusals

/-!
# The brackets and quotes that are counted

If the rest of a refused text opens more brackets than it closes, or has an odd number of quotes, the report points at the
last line and not at the place where reading stopped. Both are counted among the characters of the rest, which is not the
same as among its tokens: brackets in strings and comments count too, and so do quotes in comments. The quotes around a
string come in pairs. The one that closes it is taken for an escaped one if a backslash stands before it, so strings that
end with an escaped backslash are left out of what is said here about quotes.

**Results.** `Cut.countP_eq`: the brackets of a text are those of its tokens, and those in strings and comments.
`Cut.countQuotes_eq`: the quotes that do not pair up are those in comments. `syntaxOffset_delimiters`: so, if the brackets
of both kinds do not leave anything open and the comments have an even number of quotes, the report stays where reading
stopped.
-/
namespace LazyModules

/-- A bracket that opens something, whether it continues the phrase before it or not. -/
def Mark.opens : Mark → Bool
  | .openParen | .apply | .openBracket | .index | .openBrace => true
  | _ => false

def Mark.closes : Mark → Bool
  | .closeParen | .closeBracket | .closeBrace => true
  | _ => false

def Lexeme.isMark (q : Mark → Bool) : Lexeme → Bool
  | .mark m => q m
  | _ => false

namespace Scan

/-- The characters of strings and comments. -/
def hidden (ps : List (Piece × List Char)) : List Char :=
  (ps.filter fun p => p.1 = .string || p.1 = .comment).flatMap Prod.snd

theorem hidden_cons (p : Piece × List Char) (ps : List (Piece × List Char)) : hidden (p :: ps) = hidden [p] ++ hidden ps := by
  by_cases hp : (p.1 = .string || p.1 = .comment) = true <;> simp [hidden, hp]

section

variable {text after : List Char} {l : Layout} {p : Piece} {w : List Char} {said : Option Lexeme} {ts : List Token}
  {ps : List (Piece × List Char)} {q : Char → Bool} {q' : Mark → Bool}

/-! ## Characters of a kind -/

/-- A piece with characters of a kind is a mark that has one, or a string or a comment. -/
theorem Content.countP_eq (hmarks : ∀ m : Mark, m.text.toList.countP q = (q' m).toNat)
    (hbare : ∀ c, isBare c = true → q c = false) (h : Content after p w said) :
    w.countP q = said.toList.countP (Lexeme.isMark q') + (hidden [(p, w)]).countP q := by
  cases h with
  | bare hp hw hsaid =>
    have hnone : w.countP q = 0 := List.countP_eq_zero.mpr fun c hc => by simp [hbare c (hw c hc)]
    have hmark : said.toList.countP (Lexeme.isMark q') = 0 := by
      cases said with
      | none => rfl
      | some x =>
        cases x with
        | mark m => exact absurd rfl (hsaid m)
        | name | literal | string => rfl
    simp [hidden, hp, hnone, hmark]
  | spelled hp m =>
    rw [hmarks m]
    cases hm : q' m <;> simp [hidden, hp, Lexeme.isMark, hm]
  | @string cs x hcs hsaid =>
    have hmark : Lexeme.isMark q' x = false := by
      cases x with
      | mark m => exact absurd rfl (hsaid m)
      | name | literal | string => rfl
    simp [hidden, hmark]
  | comment cs hafter => simp [hidden]

/-- The characters of a kind from a place on: those of marks, and those in strings and comments. -/
theorem Cut.countP_eq (hmarks : ∀ m : Mark, m.text.toList.countP q = (q' m).toNat)
    (hbare : ∀ c, isBare c = true → q c = false) (h : Cut text l ts ps) :
    (text.drop l.offset).countP q = ts.countP (Lexeme.isMark q' ·.lexeme) + (hidden ps).countP q := by
  induction h with
  | done hend => rw [hend]; rfl
  | @piece l p w said ts ps htakes hrest ih =>
    have hsaid : (l.said said).countP (Lexeme.isMark q' ·.lexeme) = said.toList.countP (Lexeme.isMark q') := by
      cases said <;> simp [Layout.said, List.countP_cons]
    rw [htakes.drop_eq, List.countP_append, htakes.content.countP_eq hmarks hbare, ih, hidden_cons (p, w) ps,
      List.countP_append, List.countP_append, hsaid]
    omega

end

end Scan

/-! ## Quotes -/

namespace Locate

theorem countQuotes_append (before : Option Char) (u v : List Char) :
    countQuotes before (u ++ v) = countQuotes before u + countQuotes (u.getLast?.or before) v := by
  induction u generalizing before with
  | nil => simp [countQuotes]
  | cons c u ih =>
    have hlast : (c :: u).getLast?.or before = u.getLast?.or (some c) := by
      rw [List.getLast?_cons]
      cases u.getLast? <;> rfl
    rw [List.cons_append, countQuotes, ih, countQuotes, hlast, Nat.add_assoc]

theorem countQuotes_of_not_mem {u : List Char} (hu : '"' ∉ u) (before : Option Char) : countQuotes before u = 0 := by
  induction u generalizing before with
  | nil => rfl
  | cons c u ih =>
    rw [List.mem_cons, not_or] at hu
    have hc : c ≠ '"' := fun h => hu.1 h.symm
    simp [countQuotes, hc, ih hu.2]

/-- The characters up to the quote that ends a string have no quote that counts, but the last does unless a backslash
stands before it. -/
theorem countQuotes_tail {cs : List Char} {n : Nat} (h : Literal.tailLength cs = some n) (b : Char) :
    countQuotes (some b) (cs.take n) = if (b :: cs.take n).dropLast.getLast? = some '\\' then 0 else 1 := by
  have hbefore (front : List Char) {c : Char} {ds : List Char} {k : Nat} (hk : Literal.tailLength ds = some k) :
      (front ++ c :: ds.take k).dropLast.getLast? = (c :: ds.take k).dropLast.getLast? := by
    have hlast := Literal.getLast?_tail hk
    cases hds : ds.take k with
    | nil =>
      rw [hds] at hlast
      cases hlast
    | cons d ds =>
      rw [List.dropLast_append_of_ne_nil (List.cons_ne_nil _ _), List.dropLast_cons_cons,
        List.getLast?_append_of_ne_nil _ (List.cons_ne_nil _ _)]
  fun_induction Literal.tailLength cs generalizing n b with
  | case1 => cases h
  | case2 cs =>
    cases h
    by_cases hb : b = '\\' <;> simp [countQuotes, hb]
  | case3 c cs hc => cases h
  | case4 c cs hc ih =>
    obtain ⟨k, hk, rfl⟩ := Option.map_eq_some_iff.mp h
    have hfront := hbefore [b, '\\'] (c := c) hk
    simp only [List.cons_append, List.nil_append] at hfront
    rw [List.take_succ_cons, List.take_succ_cons, hfront, ← ih hk c]
    simp [countQuotes]
  | case5 c cs hquote hescape hc => cases h
  | case6 c cs hquote hescape hc ih =>
    obtain ⟨k, hk, rfl⟩ := Option.map_eq_some_iff.mp h
    have hfront := hbefore [b] (c := c) hk
    simp only [List.cons_append, List.nil_append] at hfront
    rw [List.take_succ_cons, hfront, ← ih hk c]
    simp [countQuotes, show c ≠ '"' from hquote]

/-- How many quotes without a backslash right before them stand in comments. -/
def commentQuotes : List (Scan.Piece × List Char) → Nat
  | [] => 0
  | (p, w) :: ps => (if p = .comment then countQuotes none w else 0) + commentQuotes ps

/-- Whether no string ends with an escaped backslash: none stands right before a closing quote. -/
def plainEnds (ps : List (Scan.Piece × List Char)) : Bool :=
  ps.all fun p => p.1 ≠ .string || p.2.dropLast.getLast? ≠ some '\\'

end Locate

namespace Scan

open Locate (countQuotes countQuotes_append countQuotes_of_not_mem countQuotes_tail commentQuotes plainEnds)

/-- A backslash before `after` would not escape a quote there. -/
def Guarded (before : Option Char) (after : List Char) : Prop := after.head? = some '"' → before ≠ some '\\'

variable {text after : List Char} {l : Layout} {p : Piece} {w : List Char} {said : Option Lexeme} {ts : List Token}
  {ps : List (Piece × List Char)}

theorem text_plain (m : Mark) : ∀ c ∈ m.text.toList, c ≠ '"' ∧ c ≠ '\\' := by
  have hall : (m.text.toList.all fun c => c != '"' && c != '\\') = true := by cases m <;> rfl
  intro c hc
  simpa using List.all_eq_true.mp hall c hc

/-- The quotes of a piece pair up unless it is a comment, and the next piece does not begin with an escaped quote. -/
theorem Content.quotes {before : Option Char} (h : Content after p w said) (hplain : plainEnds [(p, w)] = true)
    (hbefore : Guarded before (w ++ after)) :
    countQuotes before w % 2 = commentQuotes [(p, w)] % 2 ∧ (w ≠ [] → Guarded (w.getLast?.or before) after) := by
  have hclear (hw : ∀ c ∈ w, c ≠ '"' ∧ c ≠ '\\') (hp : p ≠ .comment) :
      countQuotes before w % 2 = commentQuotes [(p, w)] % 2 ∧ (w ≠ [] → Guarded (w.getLast?.or before) after) := by
    refine ⟨?_, fun hne _ => ?_⟩
    · rw [countQuotes_of_not_mem fun hmem => (hw _ hmem).1 rfl]
      simp [commentQuotes, hp]
    · obtain ⟨c, hc⟩ := List.getLast?_isSome.mpr hne |> Option.isSome_iff_exists.mp
      rw [hc, Option.some_or]
      intro heq
      exact (hw c (List.mem_of_getLast? hc)).2 (Option.some.inj heq)
  cases h with
  | bare hp hw hsaid => exact hclear (fun c hc => ⟨ne_of_isBare (hw c hc) rfl, ne_of_isBare (hw c hc) rfl⟩) hp.2
  | spelled hp m => exact hclear (text_plain m) hp.2
  | @string cs x hcs hsaid =>
    have htail := countQuotes_tail hcs '"'
    have hlast := Literal.getLast?_tail hcs
    rw [List.take_left] at htail hlast
    rw [if_neg (by simpa [plainEnds] using hplain)] at htail
    have hopen : before ≠ some '\\' := hbefore rfl
    refine ⟨?_, fun _ _ => ?_⟩
    · simp [countQuotes, htail, hopen, commentQuotes]
    · rw [List.getLast?_cons, hlast]
      simp
  | comment cs hafter =>
    refine ⟨?_, fun _ hquote => ?_⟩
    · simp [countQuotes, commentQuotes]
    · exact absurd (hafter _ hquote) (by decide)

/-- From a place on, the quotes that do not pair up are those in comments. -/
theorem Cut.countQuotes_eq {before : Option Char} (h : Cut text l ts ps) (hplain : plainEnds ps = true)
    (hbefore : Guarded before (text.drop l.offset)) :
    countQuotes before (text.drop l.offset) % 2 = commentQuotes ps % 2 := by
  induction h generalizing before with
  | done hend => rw [hend]; rfl
  | @piece l p w said ts ps htakes hrest ih =>
    rw [htakes.drop_eq] at hbefore
    rw [plainEnds, List.all_cons, Bool.and_eq_true] at hplain
    obtain ⟨hpiece, hnext⟩ := htakes.content.quotes (by simpa [plainEnds] using hplain.1) hbefore
    have hlater := ih hplain.2 (hnext htakes.ne_nil)
    rw [htakes.drop_eq, countQuotes_append, commentQuotes]
    simp only [commentQuotes, Nat.add_zero] at hpiece
    omega

/-! ## The rest of a refused text -/

def tokensFrom (text : String) (offset : Nat) : List Token := (scan text.toList).tokens.filter (offset ≤ ·.start)

theorem tokensFrom_start {text : String} {before after : List Token} {t : Token}
    (htokens : (scan text.toList).tokens = before ++ t :: after) : tokensFrom text t.start = t :: after := by
  obtain ⟨hbefore, hafter⟩ := starts_around htokens
  rw [tokensFrom, htokens, List.filter_append, List.filter_eq_nil_iff.mpr, List.filter_eq_self.mpr, List.nil_append]
  · intro u hu
    rw [decide_eq_true_eq]
    rcases List.mem_cons.mp hu with rfl | hu
    · exact Nat.le_refl _
    · exact Nat.le_of_lt (hafter u hu)
  · intro u hu
    rw [decide_eq_true_eq, Nat.not_le]
    exact hbefore u hu

end Scan

namespace Reading

open Scan (tokensFrom pieces Cut)

variable {text : String}

/-- The rest of a refused text begins at the front, at a token, or where reading stopped. -/
theorem InProgress.place {offset start : Nat} (h : InProgress text offset start) :
    start = 0 ∨ (∃ t ∈ (Scan.scan text.toList).tokens, t.start = start) ∨ start = offset := by
  obtain ⟨front, back, hlast, rfl⟩ := h
  cases front with
  | nil => exact .inl rfl
  | cons u front =>
    cases back with
    | nil => exact .inr (.inr rfl)
    | cons t back =>
      refine .inr (.inl ⟨t, ?_, rfl⟩)
      have hmem : t ∈ Scan.tokensBefore text offset := by simp [hlast.split]
      exact (List.mem_filter.mp hmem).1

/-- A text that is scanned to its end is cut into pieces from its front, from each of its tokens, and at its end. -/
theorem cut_from {start : Nat} (hended : (Scan.scan text.toList).stop = .ended)
    (hstart : start = 0 ∨ (∃ t ∈ (Scan.scan text.toList).tokens, t.start = start) ∨ start = text.length) :
    ∃ l : Scan.Layout, l.offset = start ∧
      Cut text.toList l (tokensFrom text start) (pieces (text.toList.drop start) 0) := by
  rcases hstart with rfl | ⟨t, ht, rfl⟩ | rfl
  · have hall : tokensFrom text 0 = (Scan.scan text.toList).tokens := List.filter_eq_self.mpr fun t _ => by simp
    rw [hall]
    exact ⟨.start, rfl, Scan.Passes.start.cut hended⟩
  · obtain ⟨before, after, htokens⟩ := List.append_of_mem ht
    obtain ⟨l, p, w, hpasses, hoffset, -⟩ := Scan.passes_of_tokens htokens
    have hlater : (Scan.scanFrom (text.toList.drop l.offset) 0 l).tokens = t :: after := by
      have hscan := congrArg Scan.Result.tokens hpasses.scan_eq
      rw [htokens] at hscan
      exact (List.append_cancel_left hscan).symm
    have hcut := hpasses.cut hended
    rw [hlater, hoffset] at hcut
    rw [Scan.tokensFrom_start htokens]
    exact ⟨l, hoffset, hcut⟩
  · have hdrop : text.toList.drop text.length = [] := List.drop_eq_nil_of_le (Nat.le_of_eq String.length_toList)
    have hnone : tokensFrom text text.length = [] := by
      rw [tokensFrom, List.filter_eq_nil_iff]
      intro t ht
      have hlt := start_lt ht
      simpa using hlt
    rw [hdrop, hnone]
    exact ⟨⟨text.length, none, true⟩, rfl, .done hdrop⟩

/-- If a refused text is scanned to its end, its rest is cut into pieces, and the tokens there are those of the text. -/
theorem rest_cut (hended : (Scan.scan text.toList).stop = .ended) (hrefused : (ofText text).verdict = .refused) :
    let rest := (ofText text).rest.toList
    ∃ l : Scan.Layout, rest = text.toList.drop l.offset ∧
      Cut text.toList l (tokensFrom text (text.length - rest.length)) (pieces rest 0) := by
  intro rest
  have hlength : text.toList.length = text.length := String.length_toList
  obtain ⟨offset, start, hhalts, hprogress, hr⟩ := handsBack_of_refused hrefused
  have hrest : rest = text.toList.drop start := by
    show (ofText text).rest.toList = _
    rw [hr, String.toList_ofList]
  have hstart : text.length - rest.length = start := by
    have hle := hprogress.le.trans hhalts.le
    rw [hrest, List.length_drop]
    omega
  have hplace : start = 0 ∨ (∃ t ∈ (Scan.scan text.toList).tokens, t.start = start) ∨ start = text.length := by
    rcases hprogress.place with hzero | htoken | rfl
    · exact .inl hzero
    · exact .inr (.inl htoken)
    · rcases hhalts with htoken | hblocked | ⟨-, hend⟩
      · exact .inr (.inl htoken)
      · rw [hended] at hblocked
        cases hblocked
      · exact .inr (.inr hend)
  obtain ⟨l, hl, hcut⟩ := cut_from hended hplace
  rw [hstart, hrest]
  exact ⟨l, by rw [hl], hcut⟩

end Reading

namespace Locate

theorem bare_bracket {c : Char} (hc : Scan.isBare c = true) : isOpener c = false ∧ isCloser c = false := by
  have hne (d : Char) (hd : Scan.isBare d = false) : c ≠ d := Scan.ne_of_isBare hc hd
  refine ⟨?_, ?_⟩
  · simp [isOpener, closerOf, hne '(' rfl, hne '[' rfl, hne '{' rfl]
  · simp [isCloser, hne ')' rfl, hne ']' rfl, hne '}' rfl]

theorem countP_opener (m : Mark) : m.text.toList.countP isOpener = m.opens.toNat := by cases m <;> rfl

theorem countP_closer (m : Mark) : m.text.toList.countP isCloser = m.closes.toNat := by cases m <;> rfl

/-- What the report on a refused text counts as open, if the text is scanned to its end. The brackets are those of the
tokens, and those in strings and comments. If no string ends with an escaped backslash, the quotes that do not pair up are
those in comments; and if neither leaves something open, the report points at the front of what is unread. -/
theorem syntaxOffset_delimiters {text : String} (hended : (Scan.scan text.toList).stop = .ended)
    (hrefused : (Reading.ofText text).verdict = .refused) :
    let r := Reading.ofText text
    let rest := r.rest.toList
    let tokens := Scan.tokensFrom text (text.length - rest.length)
    let pieces := Scan.pieces rest 0
    let opened := tokens.countP (Lexeme.isMark Mark.opens ·.lexeme) + (Scan.hidden pieces).countP isOpener
    let closed := tokens.countP (Lexeme.isMark Mark.closes ·.lexeme) + (Scan.hidden pieces).countP isCloser
    (unclosed rest = true ↔ closed < opened) ∧ (plainEnds pieces = true →
      (unterminated rest = true ↔ commentQuotes pieces % 2 = 1) ∧
        (opened ≤ closed → commentQuotes pieces % 2 = 0 → ∃ shortest, r.shortest = some shortest ∧
          syntaxOffset text.toList rest (r.shortest.map String.toList) =
            text.length - (if shortest = "" then r.rest else shortest).length)) := by
  intro r rest tokens pieces opened closed
  obtain ⟨l, hrest, hcut⟩ := Reading.rest_cut hended hrefused
  have hopened : rest.countP isOpener = opened := by
    show (Reading.ofText text).rest.toList.countP isOpener = _
    rw [hrest]
    exact hcut.countP_eq countP_opener fun c hc => (bare_bracket hc).1
  have hclosed : rest.countP isCloser = closed := by
    show (Reading.ofText text).rest.toList.countP isCloser = _
    rw [hrest]
    exact hcut.countP_eq countP_closer fun c hc => (bare_bracket hc).2
  have hunclosed : unclosed rest = true ↔ closed < opened := by
    rw [unclosed, decide_eq_true_eq, hopened, hclosed]
  refine ⟨hunclosed, fun hplain => ?_⟩
  have hquotes : countQuotes none rest % 2 = commentQuotes pieces % 2 := by
    show countQuotes none (Reading.ofText text).rest.toList % 2 = _
    rw [hrest]
    exact hcut.countQuotes_eq hplain fun _ h => by cases h
  have hunterminated : unterminated rest = true ↔ commentQuotes pieces % 2 = 1 := by
    rw [unterminated, decide_eq_true_eq, hquotes]
  refine ⟨hunterminated, fun hle heven => ?_⟩
  obtain ⟨shortest, hshortest⟩ : ∃ shortest, r.shortest = some shortest := by
    obtain ⟨offset, settled, hstopped, -⟩ := Reading.stopped_at hrefused
    exact ⟨_, congrArg Reading.shortest hstopped⟩
  refine ⟨shortest, hshortest, ?_⟩
  rw [hshortest, Option.map_some,
    syntaxOffset_of_closed (by rwa [hopened, hclosed]) (by rwa [hquotes]), String.length_toList]
  by_cases hempty : shortest = ""
  · rw [if_pos (by rw [hempty]; rfl), if_pos hempty]
    rfl
  · rw [if_neg (by rwa [String.toList_eq_nil_iff]), if_neg hempty]
    rfl

/-- Brackets in two strings that make up for each other, and in a comment with two quotes. -/
theorem syntaxOffset_delimiters_hidden :
    let r := Reading.ofText "x = f(\")\", \"(\") # \"[]\"\n= 1"
    (Scan.scan "x = f(\")\", \"(\") # \"[]\"\n= 1".toList).stop = .ended ∧ r.verdict = .refused ∧
      Scan.hidden (Scan.pieces r.rest.toList 0) = "\")\"\"(\"# \"[]\"".toList ∧
      syntaxOffset "x = f(\")\", \"(\") # \"[]\"\n= 1".toList r.rest.toList (r.shortest.map String.toList) = 23 := by
  have hended : (Scan.scan "x = f(\")\", \"(\") # \"[]\"\n= 1".toList).stop = .ended := rfl
  have hrefused : (Reading.ofText "x = f(\")\", \"(\") # \"[]\"\n= 1").verdict = .refused := rfl
  obtain ⟨-, hplain⟩ := syntaxOffset_delimiters hended hrefused
  obtain ⟨-, hstays⟩ := hplain rfl
  obtain ⟨shortest, hshortest, hposition⟩ := hstays (by decide) rfl
  obtain rfl : "= 1" = shortest := Option.some.inj hshortest
  exact ⟨hended, hrefused, rfl, hposition.trans rfl⟩

/-- A bracket in a string is counted: no token opens anything, and yet the report points at the end of the line. -/
theorem bracket_in_string_counted :
    let r := Reading.ofText "x = \"(\" = 1"
    let tokens := Scan.tokensFrom "x = \"(\" = 1" ("x = \"(\" = 1".length - r.rest.toList.length)
    (Scan.scan "x = \"(\" = 1".toList).stop = .ended ∧ r.verdict = .refused ∧
      tokens.countP (Lexeme.isMark Mark.opens ·.lexeme) ≤ tokens.countP (Lexeme.isMark Mark.closes ·.lexeme) ∧
      r.shortest = some "= 1" ∧
      syntaxOffset "x = \"(\" = 1".toList r.rest.toList (r.shortest.map String.toList) = 11 :=
  ⟨rfl, rfl, Nat.le_refl 0, rfl, rfl⟩

end Locate

end LazyModules
