import LazyModules.Proofs.Scan.Words

/-!
# The pieces of a text

A scan that comes to the end of its text cuts it into pieces and says a token for each that is not blank and no comment.
From any place that it comes to, `Cut` has the pieces and the tokens from there on side by side, so that what is counted
among the one can be compared with what is counted among the other.

**Results.** `Passes.cut`: from every place, the text is cut up. `Takes.content`: what the characters of a piece are.
Blanks, numbers and names are bare; marks and keywords are spelled as they are; what is left are strings and comments.
-/
namespace LazyModules.Scan

/-- The pieces that a text is cut into, each with its characters; the next `skip` characters belong to the last piece. -/
def pieces : List Char → (skip : Nat) → List (Piece × List Char)
  | [], _ => []
  | _ :: cs, skip + 1 => pieces cs skip
  | c :: cs, 0 =>
    match piece? c cs with
    | none => []
    | some (p, n) => (p, (c :: cs).take n) :: pieces cs (n - 1)

theorem pieces_drop (cs : List Char) (skip : Nat) : pieces cs skip = pieces (cs.drop skip) 0 := by
  induction cs generalizing skip with
  | nil => cases skip <;> rfl
  | cons c cs ih =>
    cases skip with
    | zero => rfl
    | succ skip => exact ih skip

variable {text : List Char} {l : Layout} {p : Piece} {w : List Char} {said : Option Lexeme} {ts : List Token}

theorem Takes.pieces_eq (h : Takes text l p w said) :
    pieces (text.drop l.offset) 0 = (p, w) :: pieces (text.drop (l.advance said w).offset) 0 := by
  obtain ⟨c, cs, rfl, hrest, hpiece⟩ := h.cut_next
  have htake (rest : List Char) : (c :: (cs ++ rest)).take (c :: cs).length = c :: cs := by simp
  rw [hrest, pieces, hpiece]
  simp only [htake]
  rw [List.length_cons, Nat.add_sub_cancel, pieces_drop, List.drop_left]

/-- From a place to the end of the text: the tokens that are said, and the pieces. -/
inductive Cut (text : List Char) : Layout → List Token → List (Piece × List Char) → Prop where
  | done {l : Layout} (hend : text.drop l.offset = []) : Cut text l [] []
  | piece {l : Layout} {p : Piece} {w : List Char} {said : Option Lexeme} {ts : List Token}
      {ps : List (Piece × List Char)} (h : Takes text l p w said) (hrest : Cut text (l.advance said w) ts ps) :
      Cut text l (l.said said ++ ts) ((p, w) :: ps)

/-- From every place that it comes to, a scan that ends with its text cuts it up. -/
theorem Passes.cut (h : Passes text l ts) (hended : (scan text).stop = .ended) :
    Cut text l (scanFrom (text.drop l.offset) 0 l).tokens (pieces (text.drop l.offset) 0) := by
  induction hlength : (text.drop l.offset).length using Nat.strong_induction_on generalizing l ts with
  | _ length ih =>
  by_cases hend : text.drop l.offset = []
  · have hdone : Cut text l [] [] := .done hend
    rw [hend]
    exact hdone
  · obtain ⟨p, w, said, htakes⟩ := h.takes_of_ended hended hend
    rw [htakes.scanFrom_eq, htakes.pieces_eq]
    exact .piece htakes (ih _ (hlength ▸ htakes.length_drop_lt) (h.step htakes) rfl)

/-! ## What pieces are made of -/

/-- A character of blanks, numbers and names. -/
def isBare (c : Char) : Bool := isSpace c || continuesWord c || c = '.' || c = '+' || c = '-'

/-- A piece with the characters `w`, what it says, and the text after it. -/
inductive Content (after : List Char) : Piece → List Char → Option Lexeme → Prop where
  | bare {p : Piece} {w : List Char} {said : Option Lexeme} (hp : p ≠ .string ∧ p ≠ .comment)
      (hbare : ∀ c ∈ w, isBare c = true) (hsaid : ∀ m, said ≠ some (.mark m)) : Content after p w said
  | spelled {p : Piece} (hp : p ≠ .string ∧ p ≠ .comment) (m : Mark) : Content after p m.text.toList (some (.mark m))
  | string {cs : List Char} {x : Lexeme} (hcs : Literal.tailLength (cs ++ after) = some cs.length)
      (hsaid : ∀ m, x ≠ .mark m) : Content after .string ('"' :: cs) (some x)
  | comment (cs : List Char) (hafter : ∀ c ∈ after.head?, isLineEnd c = true) : Content after .comment ('#' :: cs) none

theorem ne_of_isBare {c d : Char} (hc : isBare c = true) (hd : isBare d = false) : c ≠ d := by
  rintro rfl
  rw [hd] at hc
  cases hc

theorem isBare_of_isDigit {c : Char} (hc : Numeral.isDigit c = true) : isBare c = true := by
  simp [isBare, continuesWord, hc]

theorem bare_of_fraction (cs : List Char) : ∀ c ∈ cs.take (Numeral.fractionLength cs), isBare c = true := by
  rcases Numeral.take_fraction cs with hnil | ⟨ds, hds, -, hdigits⟩
  · simp [hnil]
  · rw [hds]
    intro c hc
    rcases List.mem_cons.mp hc with rfl | hc
    · rfl
    · exact isBare_of_isDigit (hdigits c hc)

theorem bare_of_exponent (cs : List Char) : ∀ c ∈ cs.take (Numeral.exponentLength cs), isBare c = true := by
  rcases Numeral.take_exponent cs with hnil | ⟨e, sign, ds, hds, he, hsign, -, hdigits⟩
  · simp [hnil]
  · rw [hds]
    intro c hc
    rcases List.mem_append.mp hc with hc | hc
    · rcases List.mem_cons.mp hc with rfl | hc
      · rcases he with rfl | rfl <;> rfl
      · rcases hsign with rfl | rfl | rfl
        · cases hc
        · rw [List.mem_singleton.mp hc]
          rfl
        · rw [List.mem_singleton.mp hc]
          rfl
    · exact isBare_of_isDigit (hdigits c hc)

theorem bare_of_number (cs : List Char) : ∀ c ∈ cs.take (Numeral.Parts.ofChars cs).length, isBare c = true := by
  rw [Numeral.take_ofChars]
  intro c hc
  rcases List.mem_append.mp hc with hc | hc
  · rcases List.mem_append.mp hc with hc | hc
    · exact isBare_of_isDigit (Numeral.digits_takeWhile cs c hc)
    · exact bare_of_fraction _ c hc
  · exact bare_of_exponent _ c hc

/-- A word says a name or a constant, or it is a keyword. -/
theorem text_of_wordLexeme {w : String} {m : Mark} (h : wordLexeme w = .mark m) : w = m.text := by
  unfold wordLexeme at h
  repeat' split at h
  all_goals cases h
  all_goals assumption

theorem content_of_word {after w : List Char} (hw : ∀ c ∈ w, continuesWord c = true) :
    Content after .word w (some (wordLexeme (String.ofList w))) := by
  cases hword : wordLexeme (String.ofList w) with
  | mark m =>
    have hkeyword : m.text.toList = w := by rw [← text_of_wordLexeme hword, String.toList_ofList]
    rw [← hkeyword]
    exact .spelled (by decide) m
  | name | literal | string =>
    exact .bare (by decide) (fun c hc => by simp [isBare, hw c hc]) (fun m h => by cases h)

/-- What a piece is made of and what it says. -/
theorem Takes.content (h : Takes text l p w said) : Content (text.drop (l.advance said w).offset) p w said := by
  obtain ⟨c, cs, rfl, -, hpiece⟩ := h.cut_next
  have hsays := h.meaning
  generalize text.drop (l.advance said (c :: cs)).offset = after at hpiece ⊢
  have hcons {q : Char → Bool} (hc : q c = true) (hcs : ∀ d ∈ cs, q d = true) : ∀ d ∈ c :: cs, q d = true := by
    intro d hd
    rcases List.mem_cons.mp hd with rfl | hd
    · exact hc
    · exact hcs d hd
  generalize hn : (c :: cs).length = n at hpiece
  cases found_of_piece? hpiece with
  | blank hc =>
    cases hsays
    have hblank := hcons hc (takeWhile_cut (Nat.succ.inj hn)).1
    exact .bare (by decide) (fun d hd => by simp [isBare, hblank d hd]) (fun m h => by cases h)
  | comment hc =>
    subst hc
    cases hsays
    exact .comment cs fun d hd => by simpa using (takeWhile_cut (Nat.succ.inj hn)).2 d hd
  | number hc =>
    have hbare := bare_of_number (c :: (cs ++ after))
    rw [← hn, ← List.cons_append, List.take_left] at hbare
    refine .bare (by decide) hbare fun m hm => ?_
    subst hm
    simp only [lexeme?] at hsays
    split at hsays <;> cases hsays
  | string hc htail =>
    subst hc
    rw [← Nat.succ.inj hn] at htail
    simp only [lexeme?] at hsays
    split at hsays
    · cases hsays
      exact .string htail fun m h => by cases h
    · cases hsays
  | word hc =>
    cases hsays
    exact content_of_word (hcons (by simp [continuesWord, hc]) (takeWhile_cut (Nat.succ.inj hn)).1)
  | @pair d rest m hcs hm =>
    obtain ⟨d', rfl⟩ := List.length_eq_one_iff.mp (Nat.succ.inj hn)
    cases hcs
    cases hsays
    rw [← text_of_pair? hm]
    exact .spelled (by simp) m
  | single hp =>
    obtain rfl := List.length_eq_zero_iff.mp (Nat.succ.inj hn)
    have hspelled := spelled_of_single? hp
    cases p with
    | mark m =>
      cases hsays
      rw [← show m.text.toList = [c] from hspelled]
      exact .spelled (by simp) m
    | opener o =>
      cases hsays
      have htext : (l.opener o).text.toList = [c] := by
        unfold Layout.opener
        split
        · exact hspelled.1
        · exact hspelled.2
      rw [← htext]
      exact .spelled (by simp) (l.opener o)
    | blank | comment | number | string | word => exact hspelled.elim

end LazyModules.Scan
