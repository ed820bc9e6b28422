import LazyModules.Proofs.Scan.Patterns
import LazyModules.Proofs.Scan.Quotes
import LazyModules.Proofs.Scan.Words

/-!
# Pieces and patterns

The scan finds a piece by looking at the first character, and then goes on as long as it can. No rule is tried after
another has failed, and nothing is taken back. That this is the longest match of all the rules together rests on two facts:
the first character leaves only rules of one action, and a numeral takes a point or an exponent only with a digit after it.

**Results.** `matched_of_piece?`: a piece is matched by a rule of its action. `piece?_of_matched`: where a rule matches the
front of a text, there is a piece, of the rule's action and no shorter. `longest_of_piece?`, `not_matched_of_piece?`: so
the piece is the longest match, and without a piece there is no match.
-/
namespace LazyModules

/-! ## Classes -/

namespace Pattern

theorem point_eq (a c : Char) : (decide (a ≤ c) && decide (c ≤ a)) = decide (c = a) := by
  rw [← Bool.decide_and, decide_eq_decide]
  exact ⟨fun h => Char.le_antisymm h.2 h.1, fun h => h ▸ ⟨Char.le_refl _, Char.le_refl _⟩⟩

theorem space_eq : space = Scan.isSpace := by
  funext c
  simp [space, within, Scan.isSpace, point_eq]

theorem inLine_eq : inLine = fun c => !Scan.isLineEnd c := by
  funext c
  simp [inLine, within, Scan.isLineEnd]

theorem digit_eq : digit = Numeral.isDigit := by
  funext c
  simp [digit, within, Numeral.isDigit]

theorem wordStart_eq : wordStart = Scan.startsWord := by
  funext c
  simp only [wordStart, within, List.any_cons, List.any_nil, point_eq, Scan.startsWord, Scan.isLetter, Bool.or_false]
  ac_rfl

theorem wordPart_eq : wordPart = Scan.continuesWord := by
  funext c
  simp only [wordPart, within, List.any_cons, List.any_nil, point_eq, Scan.continuesWord, Scan.startsWord, Scan.isLetter,
    Numeral.isDigit, Bool.or_false]
  ac_rfl

/-! ## Runs -/

variable {p q : Char → Bool} {c : Char} {cs w : List Char}

theorem cons_takeWhile_mem_run (hc : q c = true) (cs : List Char) : c :: cs.takeWhile p ∈ (run q p).language :=
  mem_run.mpr ⟨c, _, rfl, hc, fun _ hd => List.mem_takeWhile_imp hd⟩

/-- No run at the front is longer than the one that takes all it can. -/
theorem length_le_of_mem_run (h : w ∈ (run q p).language) (hw : w <+: c :: cs) :
    q c = true ∧ w.length ≤ (cs.takeWhile p).length + 1 := by
  obtain ⟨d, ds, rfl, hd, hds⟩ := mem_run.mp h
  obtain ⟨rfl, rest, rfl⟩ := List.cons_prefix_cons.mp hw
  refine ⟨hd, ?_⟩
  rw [List.takeWhile_append_of_pos hds, List.length_append, List.length_cons]
  omega

end Pattern

/-! ## Numerals -/

namespace Numeral

open Pattern (digits fraction exponent numeral mem_digits mem_fraction mem_exponent mem_numeral digit_eq)

variable {ds rest w x : List Char}

theorem mem_digits_iff : ds ∈ digits.language ↔ ds ≠ [] ∧ ∀ d ∈ ds, isDigit d = true := by rw [mem_digits, digit_eq]

/-- The length of a numeral, part by part. -/
theorem length_ofChars (cs : List Char) :
    let rest := cs.drop (cs.takeWhile isDigit).length
    (Parts.ofChars cs).length = (cs.takeWhile isDigit).length + fractionLength rest +
      exponentLength (rest.drop (fractionLength rest)) := by
  intro rest
  have hfraction := fractionLength_le rest
  have hexponent := exponentLength_le (rest.drop (fractionLength rest))
  simp only [Parts.length, Parts.ofChars, List.length_take, rest, Nat.min_eq_left hfraction, Nat.min_eq_left hexponent]

theorem length_ofChars_digits (hds : ∀ d ∈ ds, isDigit d = true) (hrest : rest.takeWhile isDigit = []) :
    (Parts.ofChars (ds ++ rest)).length = ds.length + fractionLength rest + exponentLength (rest.drop (fractionLength rest)) := by
  have hwhole : (ds ++ rest).takeWhile isDigit = ds := by rw [List.takeWhile_append_of_pos hds, hrest, List.append_nil]
  rw [length_ofChars, hwhole, List.drop_left]

/-- How many digits are at the front of digits and what comes after them. -/
theorem length_takeWhile_digits (hds : ds ∈ digits.language) (rest : List Char) :
    ∃ n, ((ds ++ rest).takeWhile isDigit).length = n + 1 ∧ n + 1 = ds.length + (rest.takeWhile isDigit).length := by
  obtain ⟨hne, hdigits⟩ := mem_digits_iff.mp hds
  have hpos := List.length_pos_iff.mpr hne
  refine ⟨ds.length + (rest.takeWhile isDigit).length - 1, ?_, by omega⟩
  rw [List.takeWhile_append_of_pos hdigits, List.length_append]
  omega

theorem fractionLength_of_mem {f : List Char} (hf : f ∈ fraction.language) (rest : List Char) :
    fractionLength (f ++ rest) = f.length + (rest.takeWhile isDigit).length := by
  obtain ⟨ds, hds, rfl⟩ := mem_fraction.mp hf
  obtain ⟨n, hn, hlength⟩ := length_takeWhile_digits hds rest
  simp only [List.cons_append, fractionLength, hn, List.length_cons]
  omega

theorem le_exponentLength_of_mem (hx : x ∈ exponent.language) (rest : List Char) : x.length ≤ exponentLength (x ++ rest) := by
  obtain ⟨e, sign, he, hsign, ds, hds, rfl⟩ := mem_exponent.mp hx
  obtain ⟨n, hn, hlength⟩ := length_takeWhile_digits hds rest
  have hletter : (decide (e = 'e') || decide (e = 'E')) = true := by simpa using he
  rcases hsign with rfl | rfl | rfl
  · -- a digit is no sign
    obtain ⟨hne, hdigits⟩ := mem_digits_iff.mp hds
    obtain ⟨d, ds, rfl⟩ := List.exists_cons_of_ne_nil hne
    have hsign : (decide (d = '+') || decide (d = '-')) = false := by
      have hd := hdigits d List.mem_cons_self
      rw [Bool.or_eq_false_iff, decide_eq_false_iff_not, decide_eq_false_iff_not]
      refine ⟨?_, ?_⟩ <;> rintro rfl <;> cases hd
    rw [List.cons_append] at hn
    simp only [List.nil_append, List.cons_append, exponentLength, hletter, hsign, hn, if_true, List.drop_zero,
      Bool.false_eq_true, if_false, List.length_cons]
    simp only [List.length_cons] at hlength
    omega
  all_goals
    simp only [List.cons_append, List.nil_append, exponentLength, hletter, if_true, decide_true, Bool.true_or, Bool.or_true,
      List.drop_succ_cons, List.drop_zero, hn, List.length_cons]
    omega

/-- Neither digits nor a fraction begin as an exponent does. -/
theorem before_exponent (hx : x ∈ exponent.language) (rest : List Char) :
    (x ++ rest).takeWhile isDigit = [] ∧ fractionLength (x ++ rest) = 0 := by
  obtain ⟨e, sign, he, -, ds, -, rfl⟩ := mem_exponent.mp hx
  rcases he with rfl | rfl <;> exact ⟨rfl, rfl⟩

theorem isDigit_of_mem_numeral {c : Char} {cs : List Char} (h : w ∈ numeral.language) (hw : w <+: c :: cs) :
    isDigit c = true := by
  obtain ⟨ds, hds, f, -, x, -, rfl⟩ := mem_numeral.mp h
  obtain ⟨hne, hdigits⟩ := mem_digits_iff.mp hds
  obtain ⟨d, ds, rfl⟩ := List.exists_cons_of_ne_nil hne
  obtain ⟨rfl, -⟩ := List.cons_prefix_cons.mp hw
  exact hdigits d List.mem_cons_self

/-- No numeral at the front is longer than the one that takes all it can. -/
theorem length_le_of_mem_numeral {cs : List Char} (h : w ∈ numeral.language) (hw : w <+: cs) :
    w.length ≤ (Parts.ofChars cs).length := by
  obtain ⟨ds, hds, f, hf, x, hx, rfl⟩ := mem_numeral.mp h
  obtain ⟨rest, rfl⟩ := hw
  have hdigits := (mem_digits_iff.mp hds).2
  simp only [List.append_assoc, List.length_append]
  rcases hf with rfl | hf
  · rcases hx with rfl | hx
    · have hwhole : ds.length ≤ ((ds ++ rest).takeWhile isDigit).length := by
        rw [List.takeWhile_append_of_pos hdigits, List.length_append]
        exact Nat.le_add_right _ _
      simp only [List.nil_append, length_ofChars, List.length_nil]
      omega
    · obtain ⟨hwhole, hfraction⟩ := before_exponent hx rest
      have hexponent := le_exponentLength_of_mem hx rest
      rw [List.nil_append, length_ofChars_digits hdigits hwhole, hfraction, List.drop_zero, List.length_nil]
      omega
  · have hwhole : (f ++ (x ++ rest)).takeWhile isDigit = [] := by
      obtain ⟨ds, -, rfl⟩ := mem_fraction.mp hf
      rfl
    have hfraction := fractionLength_of_mem hf (x ++ rest)
    rw [length_ofChars_digits hdigits hwhole]
    rcases hx with rfl | hx
    · rw [List.length_nil]
      omega
    · have hexponent := le_exponentLength_of_mem hx rest
      rw [(before_exponent hx rest).1, List.length_nil, Nat.add_zero] at hfraction
      rw [hfraction, List.drop_left]
      omega

/-- The numeral at the front of a text that begins with a digit. -/
theorem take_mem_numeral {c : Char} (hc : isDigit c = true) (cs : List Char) :
    (c :: cs).take (Parts.ofChars (c :: cs)).length ∈ numeral.language := by
  rw [take_ofChars, List.append_assoc]
  refine mem_numeral.mpr ⟨_, mem_digits_iff.mpr ⟨?_, digits_takeWhile (c :: cs)⟩, _, ?_, _, ?_, rfl⟩
  · rw [List.takeWhile_cons_of_pos hc]
    exact List.cons_ne_nil _ _
  · rcases take_fraction ((c :: cs).drop ((c :: cs).takeWhile isDigit).length) with hnil | ⟨ds, hds, hne, hdigits⟩
    · exact .inl hnil
    · exact .inr (mem_fraction.mpr ⟨ds, mem_digits_iff.mpr ⟨hne, hdigits⟩, hds⟩)
  · simp only [Parts.ofChars]
    generalize ((c :: cs).drop _).drop _ = rest
    rcases take_exponent rest with hnil | ⟨e, sign, ds, hds, he, hsign, hne, hdigits⟩
    · exact .inl hnil
    · exact .inr (mem_exponent.mpr ⟨e, sign, he, hsign, ds, mem_digits_iff.mpr ⟨hne, hdigits⟩, hds⟩)

end Numeral

/-! ## Strings -/

namespace Literal

open Pattern (quotable quoted mem_quotable mem_quoted inLine_eq)

/-- A string literal ends with the first quote that is not escaped. -/
theorem tailLength_of_quotable {ws : List (List Char)} (hws : ∀ v ∈ ws, v ∈ quotable.language) (rest : List Char) :
    tailLength (ws.flatten ++ '"' :: rest) = some (ws.flatten.length + 1) := by
  induction ws with
  | nil => rfl
  | cons v ws ih =>
    have htail := ih fun u hu => hws u (List.mem_cons_of_mem v hu)
    rw [List.flatten_cons, List.append_assoc, List.length_append]
    rcases mem_quotable.mp (hws v List.mem_cons_self) with ⟨c, rfl, hc⟩ | ⟨c, rfl, hc⟩
    · simp only [List.mem_cons, List.not_mem_nil, or_false, not_or] at hc
      obtain ⟨hquote, hslash, hlf, hcr⟩ := hc
      rw [List.singleton_append, Scan.tailLength_cons hquote hslash hlf hcr, htail, Option.map_some, List.length_singleton]
      congr 1
      omega
    · simp only [inLine_eq, Scan.isLineEnd, Bool.not_eq_true'] at hc
      rw [List.cons_append, List.singleton_append, Scan.tailLength_escape hc, htail, Option.map_some, List.length_cons,
        List.length_singleton]
      congr 1
      omega

/-- Up to the quote that ends it, a string literal is made of what may be quoted. -/
theorem quotable_of_tailLength {cs : List Char} {n : Nat} (h : tailLength cs = some n) :
    ∃ ws : List (List Char), (∀ v ∈ ws, v ∈ quotable.language) ∧ cs.take n = ws.flatten ++ ['"'] := by
  fun_induction tailLength cs generalizing n with
  | case1 => cases h
  | case2 cs =>
    cases h
    exact ⟨[], by simp, rfl⟩
  | case3 c cs hc => cases h
  | case4 c cs hc ih =>
    obtain ⟨k, hk, rfl⟩ := Option.map_eq_some_iff.mp h
    obtain ⟨ws, hws, htake⟩ := ih hk
    refine ⟨['\\', c] :: ws, List.forall_mem_cons.mpr ⟨mem_quotable.mpr (.inr ⟨c, rfl, ?_⟩), hws⟩, ?_⟩
    · simp only [inLine_eq, Scan.isLineEnd, Bool.not_eq_true']
      exact eq_false_of_ne_true hc
    · simp [htake]
  | case5 c cs hquote hescape hc => cases h
  | case6 c cs hquote hescape hc ih =>
    obtain ⟨k, hk, rfl⟩ := Option.map_eq_some_iff.mp h
    obtain ⟨ws, hws, htake⟩ := ih hk
    refine ⟨[c] :: ws, List.forall_mem_cons.mpr ⟨mem_quotable.mpr (.inl ⟨c, rfl, ?_⟩), hws⟩, ?_⟩
    · simp only [Bool.or_eq_true, decide_eq_true_eq, not_or] at hc
      simp only [List.mem_cons, List.not_mem_nil, or_false, not_or]
      exact ⟨hquote, hc.1.1, hc.1.2, hc.2⟩
    · simp [htake]

end Literal

/-! ## Punctuation -/

namespace Scan

open Pattern (pairs singles openers mem_pairs mem_oneOf)

variable {c d : Char} {cs w : List Char} {p : Piece} {n : Nat}

def Piece.action : Piece → Action
  | .blank | .comment => .ignore
  | .number => .number
  | .string => .string
  | .word => .word
  | .mark _ => .punctuation
  | .opener _ => .opener

theorem mem_pairs_of_pair? {m : Mark} (h : pair? c d = some m) : [c, d] ∈ pairs.language := by
  rw [mem_pairs]
  unfold pair? at h
  split at h
  case h_8 => cases h
  all_goals simp

theorem matched_of_single? (h : single? c = some p) : Matched p.action [c] := by
  unfold single? at h
  split at h
  case h_19 => cases h
  all_goals
    cases h
    simp [matched_iff, Piece.action, singles, openers, mem_oneOf]

theorem piece?_of_mem_pairs (h : w ∈ pairs.language) (hw : w <+: c :: cs) :
    ∃ m, piece? c cs = some (.mark m, w.length) := by
  rcases mem_pairs.mp h with rfl | rfl | rfl | rfl | rfl | rfl | rfl
  all_goals
    obtain ⟨rfl, hrest⟩ := List.cons_prefix_cons.mp hw
    obtain ⟨rest, rfl⟩ := hrest
    exact ⟨_, rfl⟩

theorem piece?_of_mem_singles (h : w ∈ singles.language) (hw : w <+: c :: cs) :
    ∃ m n, piece? c cs = some (.mark m, n) ∧ w.length ≤ n := by
  obtain ⟨d, hd, rfl⟩ := mem_oneOf.mp h
  obtain ⟨rfl, -⟩ := List.cons_prefix_cons.mp hw
  have hmark : ∃ m, single? d = some (.mark m) := by
    simp only [List.mem_cons, List.not_mem_nil, or_false] at hd
    rcases hd with rfl | rfl | rfl | rfl | rfl | rfl | rfl | rfl | rfl | rfl | rfl | rfl | rfl | rfl | rfl <;>
      exact ⟨_, rfl⟩
  obtain ⟨m, hm⟩ := hmark
  rw [piece?_eq_punctuation? hm]
  cases cs with
  | nil => exact ⟨m, 1, by rw [punctuation?, hm]; rfl, Nat.le_refl 1⟩
  | cons e cs =>
    -- two characters where they make a pair
    cases hpair : pair? d e with
    | some m' => exact ⟨m', 2, by simp only [punctuation?, hpair], by simp⟩
    | none => exact ⟨m, 1, by simp only [punctuation?, hpair, hm, Option.map_some], by simp⟩

theorem piece?_of_mem_openers (h : w ∈ openers.language) (hw : w <+: c :: cs) :
    ∃ o, piece? c cs = some (.opener o, w.length) := by
  obtain ⟨d, hd, rfl⟩ := mem_oneOf.mp h
  obtain ⟨rfl, -⟩ := List.cons_prefix_cons.mp hw
  simp only [List.mem_cons, List.not_mem_nil, or_false] at hd
  rcases hd with rfl | rfl | rfl <;> exact ⟨_, piece?_single rfl (fun _ => rfl) cs⟩

/-! ## All rules together -/

/-- A piece is matched by a rule of its action. -/
theorem matched_of_piece? (h : piece? c cs = some (p, n)) : Matched p.action ((c :: cs).take n) := by
  have htake (q : Char → Bool) : (c :: cs).take ((cs.takeWhile q).length + 1) = c :: cs.takeWhile q :=
    congrArg (c :: ·) (take_takeWhile q cs)
  cases found_of_piece? h with
  | blank hc =>
    rw [htake]
    refine .of_mem (q := .blanks) (by simp [rules, Piece.action]) ?_
    rw [Pattern.blanks, Pattern.space_eq]
    exact Pattern.cons_takeWhile_mem_run hc cs
  | comment hc =>
    rw [htake]
    refine .of_mem (q := .comment) (by simp [rules, Piece.action]) ?_
    rw [Pattern.comment, Pattern.inLine_eq]
    exact Pattern.cons_takeWhile_mem_run (decide_eq_true hc) cs
  | number hc => exact .of_mem (by simp [rules, Piece.action]) (Numeral.take_mem_numeral hc cs)
  | string hc hn =>
    subst hc
    obtain ⟨ws, hws, hbody⟩ := Literal.quotable_of_tailLength hn
    refine .of_mem (by simp [rules, Piece.action]) (Pattern.mem_quoted.mpr ⟨ws, hws, ?_⟩)
    rw [List.take_succ_cons, hbody]
  | word hc =>
    rw [htake]
    refine .of_mem (q := .word) (by simp [rules, Piece.action]) ?_
    rw [Pattern.word, Pattern.wordStart_eq, Pattern.wordPart_eq]
    exact Pattern.cons_takeWhile_mem_run hc cs
  | pair hcs hm =>
    subst hcs
    exact .of_mem (by simp [rules, Piece.action]) (mem_pairs_of_pair? hm)
  | single hp => exact matched_of_single? hp

/-- Where a rule matches the front, there is a piece. It is no shorter, and of the same action. -/
theorem piece?_of_matched {a : Action} (h : Matched a w) (hw : w <+: c :: cs) :
    ∃ p n, piece? c cs = some (p, n) ∧ p.action = a ∧ w.length ≤ n := by
  rcases matched_iff.mp h with ⟨rfl, hm⟩ | ⟨rfl, hm⟩ | ⟨rfl, hm⟩ | ⟨rfl, hm⟩ | ⟨rfl, hm⟩ | ⟨rfl, hm⟩ | ⟨rfl, hm⟩ | ⟨rfl, hm⟩
  · rw [Pattern.blanks, Pattern.space_eq] at hm
    obtain ⟨hspace, hle⟩ := Pattern.length_le_of_mem_run hm hw
    exact ⟨.blank, _, if_pos hspace, rfl, hle⟩
  · rw [Pattern.comment, Pattern.inLine_eq] at hm
    obtain ⟨hc, hle⟩ := Pattern.length_le_of_mem_run hm hw
    obtain rfl := of_decide_eq_true hc
    exact ⟨.comment, _, rfl, rfl, hle⟩
  · have hdigit := Numeral.isDigit_of_mem_numeral hm hw
    have hle := Numeral.length_le_of_mem_numeral hm hw
    obtain ⟨hspace, hhash⟩ := isDigit_cases hdigit
    exact ⟨.number, _, by simp [piece?, hspace, hhash, hdigit], rfl, hle⟩
  · obtain ⟨ws, hws, rfl⟩ := Pattern.mem_quoted.mp hm
    obtain ⟨rfl, rest, rfl⟩ := List.cons_prefix_cons.mp hw
    have htail := Literal.tailLength_of_quotable hws rest
    refine ⟨.string, _, ?_, rfl, Nat.le_refl _⟩
    rw [piece?_quote, List.append_assoc, List.singleton_append, htail]
    simp
  · rw [Pattern.word, Pattern.wordStart_eq, Pattern.wordPart_eq] at hm
    obtain ⟨hstart, hle⟩ := Pattern.length_le_of_mem_run hm hw
    obtain ⟨hspace, hhash, hdigit, hquote⟩ := startsWord_cases hstart
    exact ⟨.word, _, by simp [piece?, hspace, hhash, hdigit, hquote, hstart], rfl, hle⟩
  · obtain ⟨m, hpiece⟩ := piece?_of_mem_pairs hm hw
    exact ⟨.mark m, _, hpiece, rfl, Nat.le_refl _⟩
  · obtain ⟨m, n, hpiece, hle⟩ := piece?_of_mem_singles hm hw
    exact ⟨.mark m, n, hpiece, rfl, hle⟩
  · obtain ⟨o, hpiece⟩ := piece?_of_mem_openers hm hw
    exact ⟨.opener o, _, hpiece, rfl, Nat.le_refl _⟩

theorem longest_of_piece? (h : piece? c cs = some (p, n)) : Longest (c :: cs) ((c :: cs).take n) p.action where
  front := List.take_prefix n _
  matched := matched_of_piece? h
  longest b v hv hfront := by
    obtain ⟨p', n', hpiece, haction, hle⟩ := piece?_of_matched hv hfront
    obtain ⟨rfl, rfl⟩ := Prod.mk.inj (Option.some.inj (hpiece.symm.trans h))
    refine ⟨?_, haction.symm⟩
    rw [List.length_take, List.length_cons, Nat.min_eq_left (piece?_le h)]
    exact hle

theorem not_matched_of_piece? {a : Action} (h : piece? c cs = none) (hw : w <+: c :: cs) : ¬ Matched a w := by
  intro hm
  obtain ⟨p, n, hpiece, -⟩ := piece?_of_matched hm hw
  rw [h] at hpiece
  cases hpiece

/-! ## Actions -/

theorem lexeme?_single {l : Layout} (h : single? c = some p) : lexeme? l p [c] = p.action.read l [c] := by
  unfold single? at h
  split at h
  case h_19 => cases h
  all_goals
    cases h
    rfl

theorem lexeme?_pair {l : Layout} {m : Mark} (h : pair? c d = some m) :
    lexeme? l (.mark m) [c, d] = Action.punctuation.read l [c, d] := by
  unfold pair? at h
  split at h
  case h_8 => cases h
  all_goals
    cases h
    rfl

/-- What a piece says is what its action makes of its characters. -/
theorem lexeme?_eq_read {l : Layout} (h : piece? c cs = some (p, n)) :
    lexeme? l p ((c :: cs).take n) = p.action.read l ((c :: cs).take n) := by
  cases found_of_piece? h with
  | blank | comment | number | string | word => rfl
  | pair hcs hm =>
    subst hcs
    exact lexeme?_pair hm
  | single hp => exact lexeme?_single hp

end Scan

end LazyModules
