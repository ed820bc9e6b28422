import LazyModules.Text.Word
import LazyModules.Proofs.Scan.Visible

/-!
# The borders of a name

A name is as long as it can be, so no word goes on after it. What stands right before it may be the end of a number: a
number needs no blank after it. Nothing else that ends a piece is a character of words.

**Results.** `name_borders`: in a text that scans to its end, the character after a name is no word character, and one
that stands right before it is a digit.
-/
namespace LazyModules

/-! ## Numerals and strings -/

namespace Numeral

/-- The last of some characters, if there is one, is a digit. -/
def EndsDigit (cs : List Char) : Prop := ∀ c ∈ cs.getLast?, isDigit c = true

theorem EndsDigit.append {cs ds : List Char} (hcs : EndsDigit cs) (hds : EndsDigit ds) : EndsDigit (cs ++ ds) := by
  intro c hc
  rw [List.getLast?_append] at hc
  cases hlast : ds.getLast? with
  | none =>
    rw [hlast] at hc
    exact hcs c hc
  | some d =>
    rw [hlast] at hc
    cases hc
    exact hds c hlast

theorem EndsDigit.of_all {cs : List Char} (h : ∀ c ∈ cs, isDigit c = true) : EndsDigit cs :=
  fun c hc => h c (List.mem_of_getLast? hc)

/-- Digits after something else. -/
theorem EndsDigit.after (cs : List Char) {ds : List Char} (hds : ∀ c ∈ ds, isDigit c = true) (hne : ds ≠ []) :
    EndsDigit (cs ++ ds) := by
  intro c hc
  rw [List.getLast?_append_of_ne_nil _ hne] at hc
  exact hds c (List.mem_of_getLast? hc)

theorem digits_takeWhile (cs : List Char) : ∀ c ∈ cs.takeWhile isDigit, isDigit c = true :=
  fun _ hc => List.mem_takeWhile_imp hc

/-- A fraction is a point and digits. -/
theorem take_fraction (cs : List Char) : cs.take (fractionLength cs) = [] ∨
    ∃ ds, cs.take (fractionLength cs) = '.' :: ds ∧ ds ≠ [] ∧ ∀ d ∈ ds, isDigit d = true := by
  unfold fractionLength
  split
  · rename_i cs
    split
    · exact .inl rfl
    · rename_i n hn
      have hlength : n + 1 = (cs.takeWhile isDigit).length := hn.symm
      refine .inr ⟨cs.takeWhile isDigit, ?_, fun hnil => ?_, digits_takeWhile cs⟩
      · rw [List.take_succ_cons, hlength, Scan.take_takeWhile]
      · rw [hnil] at hn
        cases hn
  · exact .inl rfl

/-- An exponent is its letter, perhaps a sign, and digits. -/
theorem take_exponent (cs : List Char) : cs.take (exponentLength cs) = [] ∨
    ∃ e sign ds, cs.take (exponentLength cs) = e :: sign ++ ds ∧ (e = 'e' ∨ e = 'E') ∧
      (sign = [] ∨ sign = ['+'] ∨ sign = ['-']) ∧ ds ≠ [] ∧ ∀ d ∈ ds, isDigit d = true := by
  unfold exponentLength
  split
  · rename_i e cs
    split
    · rename_i he
      extract_lets sign
      split
      · exact .inl rfl
      · rename_i n hn
        have hlength : n + 1 = ((cs.drop sign).takeWhile isDigit).length := hn.symm
        refine .inr ⟨e, cs.take sign, (cs.drop sign).takeWhile isDigit, ?_, by simpa using he, ?_, fun hnil => ?_,
          digits_takeWhile _⟩
        · rw [show n + 2 + sign = sign + (n + 1) + 1 by omega, List.take_succ_cons, List.take_add, hlength, Scan.take_takeWhile]
          rfl
        · cases cs with
          | nil => exact .inl List.take_nil
          | cons c cs =>
            by_cases hc : c = '+' ∨ c = '-'
            · have hsign : sign = 1 := if_pos (by simpa using hc)
              rw [hsign, List.take_succ_cons, List.take_zero]
              simpa using hc
            · have hsign : sign = 0 := if_neg (by simpa using hc)
              exact .inl (by rw [hsign, List.take_zero])
        · rw [hnil] at hn
          cases hn
    · exact .inl rfl
  · exact .inl rfl

theorem endsDigit_fraction (cs : List Char) : EndsDigit (cs.take (fractionLength cs)) := by
  rcases take_fraction cs with hnil | ⟨ds, hds, hne, hdigits⟩
  · rw [hnil]
    exact nofun
  · rw [hds]
    exact .after ['.'] hdigits hne

theorem endsDigit_exponent (cs : List Char) : EndsDigit (cs.take (exponentLength cs)) := by
  rcases take_exponent cs with hnil | ⟨e, sign, ds, hds, -, -, hne, hdigits⟩
  · rw [hnil]
    exact nofun
  · rw [hds]
    exact .after (e :: sign) hdigits hne

/-- The numeral at the front, as written. -/
theorem take_ofChars (cs : List Char) :
    cs.take (Parts.ofChars cs).length =
      (Parts.ofChars cs).whole ++ (Parts.ofChars cs).fraction ++ (Parts.ofChars cs).exponent := by
  have hlength {n : Nat} (ds : List Char) : ds.take (ds.take n).length = ds.take n := by
    rw [List.length_take]
    exact (List.take_eq_take_iff.mpr (by omega)).symm
  simp only [Parts.length, Parts.ofChars]
  rw [List.take_add, List.take_add, Scan.take_takeWhile, hlength, ← List.drop_drop, hlength]

/-- A numeral ends with a digit. -/
theorem endsDigit_ofChars (cs : List Char) : EndsDigit (cs.take (Parts.ofChars cs).length) := by
  rw [take_ofChars]
  exact ((EndsDigit.of_all (digits_takeWhile cs)).append (endsDigit_fraction _)).append (endsDigit_exponent _)

end Numeral

namespace Literal

/-- A string ends with its quote. -/
theorem getLast?_tail {cs : List Char} {n : Nat} (h : tailLength cs = some n) : (cs.take n).getLast? = some '"' := by
  have hlonger {cs : List Char} {n : Nat} (front : List Char) (h : (cs.take n).getLast? = some '"') :
      ((front ++ cs).take (front.length + n)).getLast? = some '"' := by
    rw [List.take_length_add_append, List.getLast?_append, h]
    rfl
  fun_induction tailLength cs generalizing n with
  | case1 => cases h
  | case2 cs =>
    cases h
    rfl
  | case3 c cs hc => cases h
  | case4 c cs hc ih =>
    obtain ⟨k, hk, rfl⟩ := Option.map_eq_some_iff.mp h
    rw [Nat.add_comm]
    exact hlonger ['\\', c] (ih hk)
  | case5 c cs hquote hescape hc => cases h
  | case6 c cs hquote hescape hc ih =>
    obtain ⟨k, hk, rfl⟩ := Option.map_eq_some_iff.mp h
    rw [Nat.add_comm]
    exact hlonger [c] (ih hk)

end Literal

namespace Scan

/-! ## Word characters -/

/-- Up to the tilde, the first four ranges decide. -/
theorem isWord_eq_any {c : Char} (hc : c ≤ '~') :
    Text.isWord c = (Text.wordRanges.take 4).any fun r => r.1 ≤ c.toNat && c.toNat ≤ r.2 := by
  have hlt : c.toNat < 127 := Nat.lt_succ_of_le hc
  have hlater : ∀ r ∈ Text.wordRanges.drop 4, 127 ≤ r.1 := by decide +kernel
  have hnone : ((Text.wordRanges.drop 4).any fun r => r.1 ≤ c.toNat && c.toNat ≤ r.2) = false := by
    rw [List.any_eq_false]
    intro r hr
    have hbeyond := hlater r hr
    simp only [Bool.and_eq_true, decide_eq_true_eq, not_and]
    omega
  calc Text.isWord c
    _ = (Text.wordRanges.take 4 ++ Text.wordRanges.drop 4).any fun r => r.1 ≤ c.toNat && c.toNat ≤ r.2 := by
      rw [List.take_append_drop, Text.isWord]
    _ = (Text.wordRanges.take 4).any fun r => r.1 ≤ c.toNat && c.toNat ≤ r.2 := by
      rw [List.any_append, hnone, Bool.or_false]

/-- Up to the tilde, words are made of what names are made of. -/
theorem isWord_eq {c : Char} (hc : c ≤ '~') : Text.isWord c = continuesWord c := by
  have hascii : ∀ n : Fin 127, ((Text.wordRanges.take 4).any fun r => r.1 ≤ (Char.ofNat n).toNat &&
      (Char.ofNat n).toNat ≤ r.2) = continuesWord (Char.ofNat n) := by decide +kernel
  have heq := hascii ⟨c.toNat, Nat.lt_succ_of_le hc⟩
  rwa [Char.ofNat_toNat, ← isWord_eq_any hc] at heq

theorem continuesWord_cases {c : Char} (hc : continuesWord c = true) : isSpace c = false ∧ isLineEnd c = false := by
  have hvisible := visible_of_continuesWord hc
  have hlow : 33 ≤ c.toNat := hvisible.1
  have hend (d : Char) (hd : d.toNat < 33) : ¬ c ≤ d := fun hle => by
    have hle : c.toNat ≤ d.toNat := hle
    omega
  have hne : c ≠ ' ' := by
    rintro rfl
    exact absurd hlow (by decide)
  simp [isSpace, isLineEnd, hend '\r' (by decide), hne]

theorem le_of_isSpace {c : Char} (hc : isSpace c = true) : c ≤ '~' := by
  simp only [isSpace, Bool.or_eq_true, Bool.and_eq_true, decide_eq_true_eq] at hc
  rcases hc with ⟨-, hhigh⟩ | rfl
  · exact Char.le_trans hhigh (by decide)
  · decide

theorem isWord_of_isSpace {c : Char} (hc : isSpace c = true) : Text.isWord c = false := by
  rw [isWord_eq (le_of_isSpace hc), ← Bool.not_eq_true]
  intro hword
  rw [(continuesWord_cases hword).1] at hc
  cases hc

theorem isWord_of_isDigit {c : Char} (hc : Numeral.isDigit c = true) : Text.isWord c = true := by
  have hword : continuesWord c = true := by simp [continuesWord, hc]
  rw [isWord_eq (visible_of_continuesWord hword).2, hword]

theorem isWord_of_pair? {c d : Char} {m : Mark} (h : pair? c d = some m) : Text.isWord d = false := by
  unfold pair? at h
  split at h <;> first | decide +kernel | cases h

theorem isWord_of_single? {c : Char} {p : Piece} (h : single? c = some p) : Text.isWord c = false := by
  unfold single? at h
  split at h <;> first | decide +kernel | cases h

/-! ## Borders -/

variable {text : List Char} {l : Layout} {p : Piece} {w : List Char} {said : Option Lexeme} {ts : List Token}

/-- A piece that a word comes right after, and that ends with a word character, ends with a digit. -/
theorem Takes.isDigit_last {c : Char} {cs : List Char} (h : Takes text l p w said)
    (hnext : text.drop (l.advance said w).offset = c :: cs) (hc : continuesWord c = true) :
    ∀ a ∈ w.getLast?, Text.isWord a = true → Numeral.isDigit a = true := by
  obtain ⟨d, ds, rfl, -, hpiece⟩ := h.cut_next
  rw [hnext] at hpiece
  intro a ha hword
  generalize hn : (d :: ds).length = n at hpiece
  cases found_of_piece? hpiece with
  | blank hd =>
    have hblank : isSpace a = true := by
      rcases List.mem_cons.mp (List.mem_of_getLast? ha) with rfl | hmem
      · exact hd
      · exact (takeWhile_cut (Nat.succ.inj hn)).1 a hmem
    rw [isWord_of_isSpace hblank] at hword
    cases hword
  | comment hd =>
    -- a comment ends with its line
    have hend := (takeWhile_cut (Nat.succ.inj hn)).2 c rfl
    rw [(continuesWord_cases hc).2] at hend
    cases hend
  | number hd =>
    refine Numeral.endsDigit_ofChars (d :: (ds ++ c :: cs)) a ?_
    rwa [← hn, ← List.cons_append, List.take_left]
  | string hd htail =>
    have hlast := Literal.getLast?_tail htail
    rw [← Nat.succ.inj hn, List.take_left] at hlast
    have hquote : (d :: ds).getLast? = some '"' := by
      rw [List.getLast?_cons, hlast]
      rfl
    obtain rfl := Option.some.inj (hquote.symm.trans ha)
    exact absurd hword (by decide +kernel)
  | word hd =>
    have hend := (takeWhile_cut (Nat.succ.inj hn)).2 c rfl
    rw [hc] at hend
    cases hend
  | @pair e rest m hcs hm =>
    obtain ⟨e', rfl⟩ := List.length_eq_one_iff.mp (Nat.succ.inj hn)
    cases hcs
    obtain rfl : e = a := Option.some.inj ha
    rw [isWord_of_pair? hm] at hword
    cases hword
  | single hp =>
    obtain rfl := List.length_eq_zero_iff.mp (Nat.succ.inj hn)
    obtain rfl : d = a := Option.some.inj ha
    rw [isWord_of_single? hp] at hword
    cases hword

/-- What stands right before a place where a word begins is no word character, or it is a digit. -/
theorem Passes.isDigit_before {c : Char} {cs : List Char} (h : Passes text l ts) (hnext : text.drop l.offset = c :: cs)
    (hc : continuesWord c = true) :
    ∀ a ∈ (text.take l.offset).getLast?, Text.isWord a = true → Numeral.isDigit a = true := by
  cases h with
  | start => exact nofun
  | step h htakes =>
    rw [htakes.take_eq, List.getLast?_append_of_ne_nil _ htakes.ne_nil]
    exact htakes.isDigit_last hnext hc

/-- Wherever a scan comes to that ends with its text, the text goes on in ASCII. -/
theorem Passes.head_le (h : Passes text l ts) (hended : (scan text).stop = .ended) :
    ∀ c ∈ (text.drop l.offset).head?, c ≤ '~' := by
  intro c hc
  have hrest : text.drop l.offset ≠ [] := by
    rintro hnil
    rw [hnil] at hc
    cases hc
  obtain ⟨p, w, said, htakes⟩ := h.takes_of_ended hended hrest
  obtain ⟨d, ds, rest, -, hdrop, hpiece⟩ := htakes.cut
  obtain rfl : d = c := by
    rw [hdrop] at hc
    exact Option.some.inj hc
  rcases visible_of_piece? hpiece with ⟨hspace, -⟩ | ⟨-, hvisible⟩
  · exact le_of_isSpace hspace
  · exact hvisible.2

/-- The name that a token says is a run of word characters, and as long as it can be. In a text that scans to its end, no
word goes on after it, and if one seems to come right before it, that is a number. -/
theorem name_borders {name : String} {start : Nat} (hended : (scan text).stop = .ended)
    (hmem : (⟨.name name, start⟩ : Token) ∈ (scan text).tokens) :
    (∀ a ∈ name.toList, Text.isWord a = true) ∧
      (∀ a ∈ (text.take start).getLast?, Text.isWord a = true → Numeral.isDigit a = true) ∧
      ∀ c ∈ (text.drop (start + name.toList.length)).head?, Text.isWord c = false := by
  obtain ⟨before, after, htokens⟩ := List.append_of_mem hmem
  obtain ⟨l, p, w, hpasses, rfl, htakes⟩ := passes_of_tokens htokens
  obtain ⟨rfl, hword⟩ := word_of_name htakes.meaning
  obtain rfl : w = name.toList := by rw [← eq_of_wordLexeme hword, String.toList_ofList]
  obtain ⟨c, cs, hname, hrest, hpiece⟩ := htakes.cut_next
  obtain ⟨hstart, hlength⟩ := word_of_piece? hpiece
  rw [hname] at hlength
  obtain ⟨hinside, hoff⟩ := takeWhile_cut (Nat.succ.inj hlength)
  have hall : ∀ a ∈ name.toList, continuesWord a = true := by
    rw [hname]
    intro a ha
    rcases List.mem_cons.mp ha with rfl | ha
    · simp [continuesWord, hstart]
    · exact hinside a ha
  refine ⟨fun a ha => ?_, hpasses.isDigit_before hrest (by simp [continuesWord, hstart]), fun d hd => ?_⟩
  · rw [isWord_eq (visible_of_continuesWord (hall a ha)).2]
    exact hall a ha
  · rw [isWord_eq ((hpasses.step htakes).head_le hended d hd)]
    rw [← hname] at hoff
    exact hoff d hd

end Scan

end LazyModules
