import LazyModules.Proofs.Lines.Breaks
import LazyModules.Proofs.Data.Spelled

/-!
# Scanning lines

A piece of a text other than blanks ends with its line at the latest, and whether CR or LF comes next makes no
difference to it. Blanks stay blanks. So CR LF for LF moves tokens and changes nothing else.

**Results.** `piece?_append`: a piece does not reach beyond its line. `scan_crlf`: the tokens of the two texts, and
where their scans stop, correspond.
-/
namespace LazyModules

/-- A token at another place. -/
def Token.relocate (f : Nat → Nat) (t : Token) : Token := { t with start := f t.start }

/-- The end of a text or of a line. -/
def Text.BeginsBreak (v : List Char) : Prop := ∀ c ∈ v.head?, Text.endsLine c = true

namespace Text.BeginsBreak

theorem nil : BeginsBreak [] := nofun

theorem cons {c : Char} (hc : endsLine c = true) (cs : List Char) : BeginsBreak (c :: cs) := by
  intro d hd
  cases hd
  exact hc

/-- A break is CR or LF and what comes after it. -/
theorem cases {v : List Char} (hv : BeginsBreak v) : v = [] ∨ (∃ w, v = '\r' :: w) ∨ ∃ w, v = '\n' :: w := by
  cases v with
  | nil => exact .inl rfl
  | cons c w =>
    have hc := hv c rfl
    simp only [endsLine, Bool.or_eq_true, decide_eq_true_eq] at hc
    rcases hc with rfl | rfl
    · exact .inr (.inl ⟨w, rfl⟩)
    · exact .inr (.inr ⟨w, rfl⟩)

theorem crlf {v : List Char} (hv : BeginsBreak v) : BeginsBreak (Text.crlf v) := by
  obtain rfl | ⟨w, rfl⟩ | ⟨w, rfl⟩ := hv.cases
  · exact nil
  · exact cons rfl _
  · exact cons rfl _

/-- A run of characters that end no line. -/
theorem takeWhile_append {p : Char → Bool} (hcr : p '\r' = false) (hlf : p '\n' = false) (u : List Char)
    {v : List Char} (hv : BeginsBreak v) : (u ++ v).takeWhile p = u.takeWhile p := by
  have hnone : v.takeWhile p = [] := by
    obtain rfl | ⟨w, rfl⟩ | ⟨w, rfl⟩ := hv.cases
    · rfl
    · simp [hcr]
    · simp [hlf]
  rw [List.takeWhile_append, hnone]
  split
  · rename_i h
    rw [List.append_nil, (List.takeWhile_prefix p).eq_of_length h]
  · rfl

end Text.BeginsBreak

open Text (BeginsBreak)

/-! ## Numerals and strings -/

namespace Numeral

theorem fractionLength_append (u : List Char) {v : List Char} (hv : BeginsBreak v) :
    fractionLength (u ++ v) = fractionLength u := by
  cases u with
  | nil => obtain rfl | ⟨w, rfl⟩ | ⟨w, rfl⟩ := hv.cases <;> rfl
  | cons c u =>
    by_cases hc : c = '.'
    · subst hc
      simp only [List.cons_append, fractionLength]
      rw [hv.takeWhile_append (by decide) (by decide)]
    · simp [fractionLength, hc]

theorem fractionLength_le (u : List Char) : fractionLength u ≤ u.length := by
  unfold fractionLength
  split
  · rename_i cs
    have hle := (List.takeWhile_prefix (l := cs) isDigit).length_le
    split <;> simp only [List.length_cons] <;> omega
  · exact Nat.zero_le _

theorem exponentLength_append (u : List Char) {v : List Char} (hv : BeginsBreak v) :
    exponentLength (u ++ v) = exponentLength u := by
  match u with
  | [] => obtain rfl | ⟨w, rfl⟩ | ⟨w, rfl⟩ := hv.cases <;> rfl
  | [e] => obtain rfl | ⟨w, rfl⟩ | ⟨w, rfl⟩ := hv.cases <;> rfl
  | e :: s :: u =>
    have hdigits (cs : List Char) := hv.takeWhile_append (p := isDigit) (by decide) (by decide) cs
    by_cases hs : s = '+' || s = '-'
    · simp only [List.cons_append, exponentLength, hs, if_true, List.drop_succ_cons, List.drop_zero, hdigits]
    · simp only [List.cons_append, exponentLength, hs, Bool.false_eq_true, if_false, List.drop_zero]
      rw [← List.cons_append, hdigits]

theorem exponentLength_le (u : List Char) : exponentLength u ≤ u.length := by
  unfold exponentLength
  split
  · rename_i e cs
    split
    · extract_lets sign
      have hle := (List.takeWhile_prefix (l := cs.drop sign) isDigit).length_le
      rw [List.length_drop] at hle
      split <;> simp only [List.length_cons] <;> omega
    · exact Nat.zero_le _
  · exact Nat.zero_le _

/-- A numeral does not reach beyond its line. -/
theorem ofChars_append (u : List Char) {v : List Char} (hv : BeginsBreak v) :
    Parts.ofChars (u ++ v) = Parts.ofChars u := by
  have hwhole : (u.takeWhile isDigit).length ≤ u.length := (List.takeWhile_prefix isDigit).length_le
  have hfraction := fractionLength_le (u.drop (u.takeWhile isDigit).length)
  have hexponent := exponentLength_le
    ((u.drop (u.takeWhile isDigit).length).drop (fractionLength (u.drop (u.takeWhile isDigit).length)))
  simp only [Parts.ofChars, hv.takeWhile_append (p := isDigit) (by decide) (by decide), List.drop_append_of_le_length hwhole,
    fractionLength_append _ hv, List.take_append_of_le_length hfraction, List.length_take, Nat.min_eq_left hfraction,
    List.drop_append_of_le_length hfraction, exponentLength_append _ hv, List.take_append_of_le_length hexponent]

end Numeral

namespace Literal

/-- A string literal does not reach beyond its line. -/
theorem tailLength_append (u : List Char) {v : List Char} (hv : BeginsBreak v) : tailLength (u ++ v) = tailLength u := by
  fun_induction tailLength u with
  | case1 => obtain rfl | ⟨w, rfl⟩ | ⟨w, rfl⟩ := hv.cases <;> rfl
  | case2 cs => rfl
  | case3 c cs hc => simp [tailLength, hc]
  | case4 c cs hc ih => simp [tailLength, hc, ih]
  | case5 c cs hquote hescape hc =>
    simp only [Bool.or_eq_true, decide_eq_true_eq] at hc
    rcases hc with (rfl | rfl) | rfl
    · cases cs with
      | nil => obtain rfl | ⟨w, rfl⟩ | ⟨w, rfl⟩ := hv.cases <;> rfl
      | cons d cs => exact (hescape d cs rfl rfl).elim
    · rfl
    · rfl
  | case6 c cs hquote hescape hc ih =>
    have hbackslash : c ≠ '\\' := by
      rintro rfl
      exact hc rfl
    rw [List.cons_append, tailLength, if_neg hc, ih]
    · exact fun h => hquote h
    · exact fun d ds h => (hbackslash h).elim

end Literal

/-! ## Pieces -/

namespace Scan

theorem pair?_eq_none {c d : Char} (hd : Text.endsLine d = true) : pair? c d = none := by
  simp only [Text.endsLine, Bool.or_eq_true, decide_eq_true_eq] at hd
  unfold pair?
  rcases hd with rfl | rfl <;> split <;> first | rfl | simp_all

/-- A piece other than blanks does not reach beyond its line. -/
theorem piece?_append {c : Char} (hc : isSpace c = false) (u : List Char) {v : List Char} (hv : BeginsBreak v) :
    piece? c (u ++ v) = piece? c u := by
  have hpunctuation : punctuation? c (u ++ v) = punctuation? c u := by
    cases u with
    | nil =>
      cases v with
      | nil => rfl
      | cons d v => simp only [List.nil_append, punctuation?, pair?_eq_none (hv d rfl)]
    | cons d u => rfl
  simp only [piece?, hc, Bool.false_eq_true, if_false, hv.takeWhile_append (p := fun c => !isLineEnd c) (by decide) (by decide), ← List.cons_append,
    Numeral.ofChars_append _ hv, Literal.tailLength_append _ hv,
    hv.takeWhile_append (p := continuesWord) (by decide) (by decide), hpunctuation]

/-! ## Whole texts -/

section Relocate

variable (f : Nat → Nat)

def Layout.relocate (l : Layout) : Layout := { l with offset := f l.offset }

def Stop.relocate : Stop → Stop
  | .ended => .ended
  | .blocked offset => .blocked (f offset)
  | .fault x => .fault x

def Result.relocate (r : Result) : Result := ⟨r.tokens.map (Token.relocate f), r.stop.relocate f⟩

theorem lexeme?_relocate (l : Layout) (p : Piece) (w : List Char) : lexeme? (l.relocate f) p w = lexeme? l p w := by
  cases p <;> rfl

end Relocate

/-- Which of the two breaks ends a line makes no difference to whether the line after it shows something. -/
theorem freshAfter_crlf (fresh : Bool) (cs : List Char) : freshAfter fresh (Text.crlf cs) = freshAfter fresh cs := by
  induction cs generalizing fresh with
  | nil => rfl
  | cons c cs ih =>
    by_cases hc : c = '\n'
    · subst hc
      exact ih true
    · rw [Text.crlf, if_neg hc]
      exact ih _

theorem scanFrom_drop (cs : List Char) (skip : Nat) (l : Layout) :
    scanFrom cs skip l = scanFrom (cs.drop skip) 0 l := by
  induction cs generalizing skip with
  | nil => cases skip <;> rfl
  | cons c cs ih =>
    cases skip with
    | zero => rfl
    | succ skip => exact ih skip

/-- Blanks up to something that is none. -/
theorem scanFrom_spaces {w : List Char} (hw : w ≠ []) (hspaces : ∀ c ∈ w, isSpace c = true) {rest : List Char}
    (hrest : ∀ c ∈ rest.head?, isSpace c = false) (l : Layout) :
    scanFrom (w ++ rest) 0 l = scanFrom rest 0 (l.advance none w) := by
  cases w with
  | nil => exact (hw rfl).elim
  | cons c w =>
    have hnone : rest.takeWhile isSpace = [] := by
      cases rest with
      | nil => rfl
      | cons d rest => simp [hrest d rfl]
    have htakeWhile : (w ++ rest).takeWhile isSpace = w := by
      rw [List.takeWhile_append_of_pos fun d hd => hspaces d (List.mem_cons_of_mem c hd), hnone, List.append_nil]
    have hpiece : piece? c (w ++ rest) = some (.blank, w.length + 1) := by
      rw [piece?, if_pos (hspaces c List.mem_cons_self), htakeWhile]
    rw [List.cons_append, scanFrom, hpiece]
    simp only [lexeme?, Nat.add_sub_cancel, scanFrom_skip]
    rw [← List.cons_append, ← List.length_cons, List.take_left]

theorem advance_relocate (before w rest : List Char) (l : Layout) (hl : l.offset = before.length) (said : Option Lexeme) :
    (l.relocate (Text.crlfOffset (before ++ (w ++ rest)))).advance said (Text.crlf w) =
      (l.advance said w).relocate (Text.crlfOffset (before ++ (w ++ rest))) := by
  have hbefore := Text.crlfOffset_append_length before (w ++ rest)
  have hafter := Text.crlfOffset_append_length (before ++ w) rest
  rw [List.append_assoc, List.length_append, Text.crlf_append, List.length_append] at hafter
  simp only [Layout.advance, Layout.relocate, hl, hbefore, hafter, freshAfter_crlf]

theorem head?_dropWhile_eq_false {p : Char → Bool} {cs : List Char} {c : Char} (h : c ∈ (cs.dropWhile p).head?) :
    p c = false := by
  have hhead := List.head?_dropWhile_not p cs
  rw [Option.mem_def.mp h] at hhead
  simpa using hhead

/-- The blanks at the front, up to something that is none. -/
theorem scanFrom_takeSpaces {c : Char} (hc : isSpace c = true) (cs : List Char) (l : Layout) :
    let w := c :: cs.takeWhile isSpace
    let rest := cs.dropWhile isSpace
    scanFrom (c :: cs) 0 l = scanFrom rest 0 (l.advance none w) ∧
      ∀ l' : Layout, scanFrom (Text.crlf (c :: cs)) 0 l' = scanFrom (Text.crlf rest) 0 (l'.advance none (Text.crlf w)) := by
  intro w rest
  have hsplit : c :: cs = w ++ rest := by rw [List.cons_append, List.takeWhile_append_dropWhile]
  have hspaces : ∀ d ∈ w, isSpace d = true := by
    intro d hd
    rcases List.mem_cons.mp hd with rfl | hd
    · exact hc
    · exact List.mem_takeWhile_imp hd
  have hrest : ∀ d ∈ rest.head?, isSpace d = false := fun d hd => head?_dropWhile_eq_false hd
  refine ⟨?_, fun l' => ?_⟩
  · rw [hsplit]
    exact scanFrom_spaces (List.cons_ne_nil _ _) hspaces hrest l
  · rw [hsplit, Text.crlf_append]
    refine scanFrom_spaces ?_ (fun d hd => ?_) (fun d hd => ?_) l'
    · simp only [w, Text.crlf]
      split <;> exact List.cons_ne_nil _ _
    · rcases Text.mem_or_eq_of_mem_crlf hd with hd | rfl
      · exact hspaces d hd
      · rfl
    · cases hsuffix : rest with
      | nil =>
        rw [hsuffix] at hd
        cases hd
      | cons e es =>
        have he : isSpace e = false := hrest e (by rw [hsuffix]; rfl)
        have hlf : e ≠ '\n' := by
          rintro rfl
          cases he
        rw [hsuffix, Text.crlf, if_neg hlf] at hd
        cases hd
        exact he

/-- A piece other than blanks and what comes after it, which correspond. -/
theorem piece?_crlf {c : Char} (hc : isSpace c = false) (cs : List Char) :
    piece? c (Text.crlf cs) = piece? c cs ∧ ∀ p n, piece? c cs = some (p, n) →
      (c :: Text.crlf cs).take n = (c :: cs).take n ∧ '\n' ∉ (c :: cs).take n ∧
        (Text.crlf cs).drop (n - 1) = Text.crlf (cs.drop (n - 1)) := by
  have hlf : c ≠ '\n' := by
    rintro rfl
    cases hc
  obtain ⟨u, v, rfl, hu, hv⟩ : ∃ u v, cs = u ++ v ∧ '\n' ∉ u ∧ BeginsBreak v := by
    refine ⟨cs.takeWhile (· ≠ '\n'), cs.dropWhile (· ≠ '\n'), (List.takeWhile_append_dropWhile).symm, fun h => ?_,
      fun d hd => ?_⟩
    · simpa using List.mem_takeWhile_imp h
    · have hd := head?_dropWhile_eq_false hd
      simp only [ne_eq, decide_not, Bool.not_eq_false', decide_eq_true_eq] at hd
      simp [Text.endsLine, hd]
  rw [Text.crlf_append, Text.crlf_of_not_mem hu, piece?_append hc u hv, piece?_append hc u hv.crlf]
  refine ⟨rfl, fun p n hpiece => ?_⟩
  have hn := piece?_le hpiece
  have htake (v : List Char) : (c :: (u ++ v)).take n = (c :: u).take n := by
    rw [← List.cons_append, List.take_append_of_le_length hn]
  refine ⟨by rw [htake, htake], fun h => ?_, ?_⟩
  · rw [htake] at h
    rcases List.mem_cons.mp (List.mem_of_mem_take h) with h | h
    · exact hlf h.symm
    · exact hu h
  · rw [List.drop_append_of_le_length (by omega), List.drop_append_of_le_length (by omega), Text.crlf_append,
      Text.crlf_of_not_mem fun h => hu (List.mem_of_mem_drop h)]

/-- The scan of what is left of a text, from corresponding places on. -/
theorem scanFrom_crlf (before cs : List Char) (l : Layout) (hl : l.offset = before.length) :
    scanFrom (Text.crlf cs) 0 (l.relocate (Text.crlfOffset (before ++ cs))) =
      (scanFrom cs 0 l).relocate (Text.crlfOffset (before ++ cs)) := by
  induction hlength : cs.length using Nat.strong_induction_on generalizing before cs l with
  | _ length ih =>
  cases cs with
  | nil => rfl
  | cons c cs =>
    -- the rest of the text after a piece `w`, which is shorter
    have hlater (w rest : List Char) (hsplit : c :: cs = w ++ rest) (hw : w ≠ []) (said : Option Lexeme) :
        scanFrom (Text.crlf rest) 0 ((l.relocate (Text.crlfOffset (before ++ c :: cs))).advance said (Text.crlf w)) =
          (scanFrom rest 0 (l.advance said w)).relocate (Text.crlfOffset (before ++ c :: cs)) := by
      have hshorter : rest.length < length := by
        rw [← hlength, hsplit, List.length_append]
        have := List.length_pos_iff.mpr hw
        omega
      have hrest := ih _ hshorter (before ++ w) rest (l.advance said w) (by simp [Layout.advance, hl]) rfl
      rw [hsplit, advance_relocate before w rest l hl, ← List.append_assoc, hrest]
    cases hc : isSpace c with
    | true =>
      obtain ⟨hlf, hcrlf⟩ := scanFrom_takeSpaces hc cs l
      rw [hlf, hcrlf]
      refine hlater _ _ ?_ (List.cons_ne_nil _ _) none
      rw [List.cons_append, List.takeWhile_append_dropWhile]
    | false =>
      obtain ⟨hsame, hpieces⟩ := piece?_crlf hc cs
      have hlf : c ≠ '\n' := by
        rintro rfl
        cases hc
      rw [Text.crlf, if_neg hlf, scanFrom, scanFrom, hsame]
      rcases hpiece : piece? c cs with _ | ⟨p, n⟩
      · rfl
      · obtain ⟨htake, hunbroken, hdrop⟩ := hpieces p n hpiece
        have hpos := piece?_pos hpiece
        have hsplit : c :: cs = (c :: cs).take n ++ cs.drop (n - 1) := by
          obtain ⟨n, rfl⟩ := Nat.exists_eq_add_one_of_ne_zero (Nat.ne_of_gt hpos)
          rw [List.take_succ_cons, List.cons_append, Nat.add_sub_cancel, List.take_append_drop]
        have hnonempty : (c :: cs).take n ≠ [] := by
          simp only [ne_eq, List.take_eq_nil_iff, not_or]
          exact ⟨by omega, List.cons_ne_nil _ _⟩
        simp only [htake, lexeme?_relocate]
        cases hx : lexeme? l p ((c :: cs).take n) with
        | error f => rfl
        | ok said =>
          have hrest := hlater _ _ hsplit hnonempty said
          rw [Text.crlf_of_not_mem hunbroken] at hrest
          simp only [scanFrom_drop _ (n - 1), hdrop, hrest]
          cases said <;> rfl

/-- CR LF for LF moves tokens and changes nothing else. -/
theorem scan_crlf (text : List Char) :
    scan (Text.crlf text) = (scan text).relocate (Text.crlfOffset text) :=
  scanFrom_crlf [] text .start rfl

end Scan

end LazyModules
