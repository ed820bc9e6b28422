import Mathlib.Data.List.Forall2
import LazyModules.Proofs.Data.Written
import LazyModules.Proofs.Blame.Spelling

/-!
# Spelling phrases

Characters spell a phrase if they scan to the tokens of a derivation of it, whatever comes before that ends no
value, and whatever comes after that cannot go on with a word or a number. In data, that is a comma or a bracket.

**Results.** One lemma for each piece of data: `spelled_word`, `spelled_nat`, `spelled_negative`, `spelled_text`, and
for what is put together `spelled_items`, `spelled_list`, `spelled_field`, `spelled_record`.
-/
namespace LazyModules.Scan

/-! ## One piece after the other -/

/-- A mark that is a character of its own, whatever comes after it. -/
theorem scanFrom_mark {l : Layout} {c : Char} {p : Piece} {m : Mark} (hp : single? c = some p)
    (halone : ∀ d, pair? c d = none) (hm : lexeme? l p [c] = .ok (some (.mark m))) (rest : List Char) :
    scanFrom (c :: rest) 0 l = (scanFrom rest 0 (l.advance (some (.mark m)) [c])).after [⟨.mark m, l.offset⟩] :=
  scanFrom_piece (c := c) (piece?_single hp halone ([] ++ rest)) hm

/-- A blank before something that is none. -/
theorem scanFrom_blank {l : Layout} {c : Char} (hc : isSpace c = false) (cs : List Char) :
    scanFrom (' ' :: c :: cs) 0 l = scanFrom (c :: cs) 0 (l.advance none [' ']) := by
  have hpiece : piece? ' ' (c :: cs) = some (.blank, 1) := by
    have hspace : isSpace ' ' = true := by decide
    simp [piece?, hspace, hc]
  rw [scanFrom, hpiece]
  rfl

/-- What may come after a piece of data: nothing, a comma, a colon or a closing bracket. -/
def Closes (rest : List Char) : Prop := ∀ c ∈ rest.head?, c = ',' ∨ c = ':' ∨ c = ']' ∨ c = '}'

/-- Characters that scan to certain tokens if what comes after them closes data. -/
def Scans (l : Layout) (cs : List Char) (ts : List Token) (l' : Layout) : Prop :=
  ∀ rest, Closes rest → scanFrom (cs ++ rest) 0 l = (scanFrom rest 0 l').after ts

theorem Closes.nil : Closes [] := nofun

theorem Closes.cons {c : Char} (hc : c = ',' ∨ c = ':' ∨ c = ']' ∨ c = '}') (cs : List Char) : Closes (c :: cs) :=
  fun d hd => by cases hd; exact hc

/-- A place where an operand may begin: the last token ends no value. -/
def Layout.Free (l : Layout) : Prop := l.previous.any Lexeme.endsValue = false

theorem Layout.Free.opener {l : Layout} (hl : l.Free) (o : Opener) : l.opener o = o.opening := by
  rw [Layout.opener, show l.previous.any Lexeme.endsValue = false from hl]
  rfl

theorem Scans.nil (l : Layout) : Scans l [] [] l := fun rest _ => by simp

theorem Scans.append {l l₁ l₂ : Layout} {cs ds : List Char} {ts us : List Token} (hcs : Scans l cs ts l₁)
    (hds : Scans l₁ ds us l₂) (hcloses : ∀ rest, Closes rest → Closes (ds ++ rest)) :
    Scans l (cs ++ ds) (ts ++ us) l₂ := by
  intro rest hrest
  rw [List.append_assoc, hcs _ (hcloses rest hrest), hds rest hrest, Result.after_after]

theorem Scans.mark {l l' : Layout} {c : Char} {p : Piece} {m : Mark} (hp : single? c = some p)
    (halone : ∀ d, pair? c d = none) (hm : lexeme? l p [c] = .ok (some (.mark m))) {cs : List Char} {ts : List Token}
    (hcs : Scans (l.advance (some (.mark m)) [c]) cs ts l') :
    Scans l (c :: cs) (⟨.mark m, l.offset⟩ :: ts) l' := by
  intro rest hrest
  rw [List.cons_append, scanFrom_mark hp halone hm, hcs rest hrest, Result.after_after]
  rfl

/-- Characters that begin with something to see. -/
def Shown (cs : List Char) : Prop := ∃ c ds, cs = c :: ds ∧ isSpace c = false

theorem Scans.blank {l l' : Layout} {cs : List Char} {ts : List Token} (hshown : Shown cs)
    (hcs : Scans (l.advance none [' ']) cs ts l') : Scans l (' ' :: cs) ts l' := by
  obtain ⟨c, ds, rfl, hc⟩ := hshown
  intro rest hrest
  rw [← hcs rest hrest]
  exact scanFrom_blank hc (ds ++ rest)

/-! ## Words, numbers and texts -/

/-- A run of characters that is cut off by what closes data. -/
theorem takeWhile_closes {p : Char → Bool} (hcomma : p ',' = false) (hcolon : p ':' = false)
    (hbracket : p ']' = false) (hbrace : p '}' = false) {cs rest : List Char} (hcs : ∀ c ∈ cs, p c = true) (hrest : Closes rest) :
    (cs ++ rest).takeWhile p = cs := by
  rw [List.takeWhile_append_of_pos hcs]
  cases rest with
  | nil => simp
  | cons c rest =>
    have hc : p c = false := by
      rcases hrest c rfl with rfl | rfl | rfl | rfl
      · exact hcomma
      · exact hcolon
      · exact hbracket
      · exact hbrace
    simp [hc]

theorem startsWord_cases {c : Char} (hc : startsWord c = true) :
    isSpace c = false ∧ c ≠ '#' ∧ Numeral.isDigit c = false ∧ c ≠ '"' := by
  simp only [startsWord, isLetter, Bool.or_eq_true, Bool.and_eq_true, decide_eq_true_eq] at hc
  simp only [isSpace, Numeral.isDigit, Bool.or_eq_false_iff, Bool.and_eq_false_iff, decide_eq_false_iff_not, ne_eq,
    Char.le_def, Char.ext_iff, UInt32.le_iff_toNat_le, ← UInt32.toNat_inj] at hc ⊢
  simp only [Char.reduceVal, UInt32.reduceToNat] at hc ⊢
  omega

/-- A word scans as itself. -/
theorem scans_word {c : Char} {cs : List Char} (hc : startsWord c = true) (hcs : ∀ d ∈ cs, continuesWord d = true)
    (l : Layout) : Scans l (c :: cs) [⟨wordLexeme (String.ofList (c :: cs)), l.offset⟩]
      (l.advance (some (wordLexeme (String.ofList (c :: cs)))) (c :: cs)) := by
  intro rest hrest
  obtain ⟨hspace, hhash, hdigit, hquote⟩ := startsWord_cases hc
  have htake := takeWhile_closes (p := continuesWord) (by decide) (by decide) (by decide) (by decide) hcs hrest
  refine scanFrom_piece (p := .word) ?_ rfl
  simp only [piece?, hspace, hhash, hdigit, hquote, hc, htake]
  rfl

theorem isDigit_eq (c : Char) : Numeral.isDigit c = c.isDigit := by
  simp only [Numeral.isDigit, Char.isDigit]
  rfl

theorem natOf_toDigits (n : Nat) : Numeral.natOf (Nat.toDigits 10 n) = n := by
  have hfold := Nat.ofDigitChars_ten_toDigits (n := n)
  rw [Nat.ofDigitChars] at hfold
  simpa only [Numeral.natOf, Nat.mul_comm] using hfold

theorem Closes.fractionLength {rest : List Char} (hrest : Closes rest) : Numeral.fractionLength rest = 0 := by
  cases rest with
  | nil => rfl
  | cons c rest => rcases hrest c rfl with rfl | rfl | rfl | rfl <;> rfl

theorem Closes.exponentLength {rest : List Char} (hrest : Closes rest) : Numeral.exponentLength rest = 0 := by
  cases rest with
  | nil => rfl
  | cons c rest => rcases hrest c rfl with rfl | rfl | rfl | rfl <;> rfl

theorem parts_digits {ds rest : List Char} (hds : ∀ d ∈ ds, Numeral.isDigit d = true) (hrest : Closes rest) :
    Numeral.Parts.ofChars (ds ++ rest) = ⟨ds, [], []⟩ := by
  have htake := takeWhile_closes (p := Numeral.isDigit) (by decide) (by decide) (by decide) (by decide) hds hrest
  simp only [Numeral.Parts.ofChars, htake, List.drop_left, hrest.fractionLength, hrest.exponentLength,
    List.take_zero, List.length_nil, List.drop_zero]

theorem isDigit_cases {c : Char} (hc : Numeral.isDigit c = true) : isSpace c = false ∧ c ≠ '#' := by
  simp only [Numeral.isDigit, Bool.and_eq_true, decide_eq_true_eq] at hc
  simp only [isSpace, Bool.or_eq_false_iff, Bool.and_eq_false_iff, decide_eq_false_iff_not, ne_eq,
    Char.le_def, Char.ext_iff, UInt32.le_iff_toNat_le, ← UInt32.toNat_inj] at hc ⊢
  simp only [Char.reduceVal, UInt32.reduceToNat] at hc ⊢
  omega

/-- A natural of at most so many digits scans as itself. -/
theorem scans_nat {n : Nat} (hn : (Nat.toDigits 10 n).length ≤ Number.digitLimit) (l : Layout) :
    ∃ l', Scans l (Nat.toDigits 10 n) [⟨.literal (.int n), l.offset⟩] l' := by
  have hdigits : ∀ d ∈ Nat.toDigits 10 n, Numeral.isDigit d = true := fun d hd => by
    rw [isDigit_eq]
    exact Nat.isDigit_of_mem_toDigits (by omega) (by omega) hd
  have hvalue := natOf_toDigits n
  obtain ⟨c, cs, hcs⟩ := List.exists_cons_of_ne_nil (Nat.toDigits_ne_nil (n := n) (b := 10))
  rw [hcs] at hdigits hn hvalue ⊢
  obtain ⟨hspace, hhash⟩ := isDigit_cases (hdigits c (by simp))
  refine ⟨_, fun rest hrest => scanFrom_piece (p := .number) (x := some (.literal (.int n))) ?_ ?_⟩
  · have hparts := parts_digits hdigits hrest
    simp only [List.cons_append] at hparts
    simp only [piece?, hspace, hhash, hdigits c (by simp), hparts]
    rfl
  · have hparts := parts_digits hdigits Closes.nil
    rw [List.append_nil] at hparts
    have hlimit : ¬ Number.digitLimit < (c :: cs).length := Nat.not_lt.mpr hn
    simp only [lexeme?, hparts, Numeral.Parts.value, List.isEmpty_nil, Bool.and_self, if_true, hlimit, if_false,
      hvalue]

/-- A character is written by an escape that stands for it, or it is none that would need one. -/
theorem writeChar_cases (c : Char) :
    (∃ x, Literal.writeChar c = ['\\', x] ∧ Literal.escape? x = some c ∧ ('\n' ≤ x && x ≤ '\r') = false) ∨
      Literal.writeChar c = [c] ∧ c ≠ '\\' ∧ c ≠ '"' ∧ c ≠ '\n' := by
  unfold Literal.writeChar
  split
  · next hc => exact .inl ⟨'\\', rfl, by rw [hc]; rfl, by decide⟩
  split
  · next hc => exact .inl ⟨'"', rfl, by rw [hc]; rfl, by decide⟩
  split
  · next hc => exact .inl ⟨'n', rfl, hc ▸ rfl, by decide⟩
  split
  · next hc => exact .inl ⟨'t', rfl, hc ▸ rfl, by decide⟩
  · next hslash hquote hfeed _ => exact .inr ⟨rfl, hslash, hquote, hfeed⟩

theorem unescape_write (cs : List Char) : Literal.unescape (cs.flatMap Literal.writeChar) = .ok cs := by
  induction cs with
  | nil => rfl
  | cons c cs ih =>
    rw [List.flatMap_cons]
    rcases writeChar_cases c with ⟨x, hwrite, hescape, -⟩ | ⟨hwrite, hslash, -, -⟩
    · simp [hwrite, Literal.unescape, hescape, ih, Except.map]
    · simp [hwrite, hslash, Literal.unescape, ih, Except.map]

/-- A character that needs no escape, in a string literal. -/
theorem tailLength_cons {c : Char} (hquote : c ≠ '"') (hslash : c ≠ '\\') (hfeed : c ≠ '\n') (hreturn : c ≠ '\r')
    (cs : List Char) : Literal.tailLength (c :: cs) = (Literal.tailLength cs).map (· + 1) := by
  rw [Literal.tailLength]
  · simp [hslash, hfeed, hreturn]
  · exact hquote
  · exact fun _ _ hc => absurd hc hslash

/-- An escape in a string literal. -/
theorem tailLength_escape {c : Char} (hc : ('\n' ≤ c && c ≤ '\r') = false) (cs : List Char) :
    Literal.tailLength ('\\' :: c :: cs) = (Literal.tailLength cs).map (· + 2) := by
  rw [Literal.tailLength, hc]
  rfl

theorem tailLength_write {cs : List Char} (hcs : '\r' ∉ cs) (rest : List Char) :
    Literal.tailLength (cs.flatMap Literal.writeChar ++ '"' :: rest) =
      some ((cs.flatMap Literal.writeChar).length + 1) := by
  induction cs with
  | nil => rfl
  | cons c cs ih =>
    have htail := ih fun hmem => hcs (List.mem_cons_of_mem _ hmem)
    have hreturn : c ≠ '\r' := fun hc => hcs (by simp [hc])
    rw [List.flatMap_cons, List.append_assoc, List.length_append]
    rcases writeChar_cases c with ⟨x, hwrite, -, hline⟩ | ⟨hwrite, hslash, hquote, hfeed⟩
    · simp only [hwrite, List.cons_append, List.nil_append, tailLength_escape hline, htail, Option.map_some, List.length_cons,
        List.length_nil]
      congr 1
      omega
    · simp only [hwrite, List.cons_append, List.nil_append, tailLength_cons hquote hslash hfeed hreturn, htail, Option.map_some,
        List.length_cons, List.length_nil]
      congr 1
      omega

/-- A text without carriage returns scans as itself. -/
theorem scans_text {s : String} (hs : '\r' ∉ s.toList) (l : Layout) :
    ∃ l', Scans l (Literal.write s.toList) [⟨.string s, l.offset⟩] l' := by
  refine ⟨_, fun rest _ => scanFrom_piece (p := .string) (x := some (.string s)) ?_ ?_⟩
  · have htail := tailLength_write hs rest
    change piece? '"' ((s.toList.flatMap Literal.writeChar ++ ['"']) ++ rest) = _
    rw [List.append_assoc, List.singleton_append]
    have hspace : isSpace '"' = false := by decide
    have hdigit : Numeral.isDigit '"' = false := by decide
    simp [piece?, hspace, hdigit, htail]
  · simp [lexeme?, unescape_write]

theorem eq_of_wordLexeme {w k : String} (h : wordLexeme w = .name k) : w = k := by
  unfold wordLexeme at h
  repeat' split at h
  all_goals first | cases h; rfl | cases h

theorem word_of_name {l : Layout} {p : Piece} {cs : List Char} {k : String}
    (h : lexeme? l p cs = .ok (some (.name k))) : p = .word ∧ wordLexeme (String.ofList cs) = .name k := by
  cases p with
  | word => exact ⟨rfl, Option.some.inj (Except.ok.inj h)⟩
  | number | string =>
    simp only [lexeme?] at h
    split at h <;> cases h
  | blank | comment | mark _ | opener _ => cases h

theorem word_of_piece? {c : Char} {cs : List Char} {n : Nat} (h : piece? c cs = some (.word, n)) :
    startsWord c = true ∧ n = (cs.takeWhile continuesWord).length + 1 := by
  rcases piece?_cases h with h | h | h | h | ⟨-, h⟩ | ⟨_, h, -⟩
  · cases h
  · cases h
  · cases h
  · cases h
  · exact h
  · exact h.elim

/-- What scans as a name is a word, and none of the words that say something else. -/
theorem IsName.word {k : String} (hk : IsName k) : ∃ c cs, k.toList = c :: cs ∧ startsWord c = true ∧
    (∀ d ∈ cs, continuesWord d = true) ∧ wordLexeme k = .name k := by
  have hscan : scan k.toList = ⟨[⟨.name k, 0⟩], .ended⟩ := hk
  have htokens : (scan k.toList).tokens = [] ++ ⟨.name k, 0⟩ :: [] := congrArg Result.tokens hscan
  obtain ⟨l, p, w, -, hstart, htakes⟩ := passes_of_tokens htokens
  obtain ⟨rfl, hword⟩ := word_of_name htakes.meaning
  obtain ⟨c, cs, rest, rfl, hrest, hpiece⟩ := htakes.cut
  obtain rfl := eq_of_wordLexeme hword
  -- the word is the whole text, so nothing in it ended the word
  have hnil : rest = [] := by
    simpa [show l.offset = 0 from hstart] using hrest
  subst hnil
  rw [List.append_nil] at hpiece
  obtain ⟨hc, hlength⟩ := word_of_piece? hpiece
  have htake : cs.takeWhile continuesWord = cs :=
    (List.takeWhile_prefix _).eq_of_length (Nat.succ.inj hlength).symm
  exact ⟨c, cs, String.toList_ofList, hc, List.takeWhile_eq_self_iff.mp htake, hword⟩

end LazyModules.Scan

namespace LazyModules.Grammar

open Scan

/-! ## Phrases -/

/-- Characters that spell a phrase of a certain meaning wherever an operand may begin. -/
def Spelled (x : Phrase) (cs : List Char) (R : x.Meaning → Prop) : Prop :=
  ∀ l : Scan.Layout, l.Free → ∃ l', ∃ d : Derivation x, Scans l cs d.yield l' ∧ d.Preferred ∧ d.Lawful ∧ R d.meaning

theorem Spelled.imp {x : Phrase} {cs : List Char} {R R' : x.Meaning → Prop} (h : Spelled x cs R)
    (himp : ∀ m, R m → R' m) : Spelled x cs R' := by
  intro l hl
  obtain ⟨l', d, hscans, hpreferred, hlawful, hd⟩ := h l hl
  exact ⟨l', d, hscans, hpreferred, hlawful, himp _ hd⟩

theorem spelled_word {c : Char} {cs : List Char} (hc : startsWord c = true)
    (hcs : ∀ d ∈ cs, continuesWord d = true) {k : Constant}
    (hk : wordLexeme (String.ofList (c :: cs)) = .literal k) :
    Spelled .expr (c :: cs) fun e => ∃ start, e = .literal k start := by
  intro l _
  have hscans := scans_word hc hcs l
  rw [hk] at hscans
  exact ⟨_, .operand (.unsigned (.primary (.literal k l.offset))), hscans, ⟨trivial, trivial⟩,
    ⟨trivial, trivial⟩, l.offset, rfl⟩

theorem spelled_nat {n : Nat} (hn : (Nat.toDigits 10 n).length ≤ Number.digitLimit) :
    Spelled .expr (Nat.toDigits 10 n) fun e => ∃ start, e = .literal (.int n) start := by
  intro l _
  obtain ⟨l', hscans⟩ := scans_nat hn l
  exact ⟨l', .operand (.unsigned (.primary (.literal (.int n) l.offset))), hscans, ⟨trivial, trivial⟩,
    ⟨trivial, trivial⟩, l.offset, rfl⟩

/-- Where an operand may begin, a dash is a sign. -/
theorem spelled_negative {n : Nat} (hn : (Nat.toDigits 10 n).length ≤ Number.digitLimit) :
    Spelled .expr ('-' :: Nat.toDigits 10 n) fun e => ∃ start sign, e = .unary .neg (.literal (.int n) start) sign := by
  intro l hl
  have hdash : lexeme? l (.opener .dash) ['-'] = .ok (some (.mark .negate)) := by
    rw [lexeme?, hl.opener]
    rfl
  obtain ⟨l', hscans⟩ := scans_nat hn (l.advance (some (.mark .negate)) ['-'])
  let d : Derivation .expr := .operand (.signed .neg l.offset (.unsigned (.primary (.literal (.int n)
    (l.advance (some (.mark .negate)) ['-']).offset))))
  exact ⟨l', d, .mark rfl (fun _ => rfl) hdash hscans, ⟨trivial, trivial⟩, ⟨trivial, trivial⟩, _, _, rfl⟩

theorem spelled_text {s : String} (hs : '\r' ∉ s.toList) :
    Spelled .expr (Literal.write s.toList) fun e => ∃ start, e = .literal (.text s) start := by
  intro l _
  obtain ⟨l', hscans⟩ := scans_text hs l
  exact ⟨l', .operand (.unsigned (.primary (.string s l.offset))), hscans, ⟨trivial, trivial⟩,
    ⟨trivial, trivial⟩, l.offset, rfl⟩

/-! ## Containers -/

section Items

variable {x : Phrase} {α : Type} {w : α → List Char} {R : α → x.Meaning → Prop}

theorem intercalate_eq_flatMap (w : α → List Char) (a : α) (as : List α) :
    List.intercalate [',', ' '] ((a :: as).map w) = w a ++ as.flatMap fun b => ',' :: ' ' :: w b := by
  induction as generalizing a with
  | nil => simp
  | cons b as ih =>
    rw [List.map_cons, List.map_cons, List.intercalate_cons_cons, ← List.map_cons, ih b, List.flatMap_cons]
    simp

theorem closes_more (w : α → List Char) (as : List α) (rest : List Char) (hrest : Closes rest) :
    Closes ((as.flatMap fun a => ',' :: ' ' :: w a) ++ rest) := by
  cases as with
  | nil => exact hrest
  | cons a as => exact .cons (.inl rfl) _

theorem advance_free {l : Scan.Layout} {m : Mark} (hm : (Lexeme.mark m).endsValue = false) (cs : List Char) :
    (l.advance (some (.mark m)) cs).Free := hm

/-- The items after the first, each after a comma. -/
theorem spelled_more {as : List α} (has : ∀ a ∈ as, Shown (w a) ∧ Spelled x (w a) (R a)) (l : Scan.Layout)
    {d : Derivation (.some x)} (hpreferred : d.Preferred) (hlawful : d.Lawful) :
    ∃ l' ts ms, ∃ d' : Derivation (.some x), Scans l (as.flatMap fun a => ',' :: ' ' :: w a) ts l' ∧
      d'.yield = d.yield ++ ts ∧ d'.Preferred ∧ d'.Lawful ∧ d'.meaning = d.meaning ++ ms ∧
      List.Forall₂ R as ms := by
  induction as generalizing l d with
  | nil => exact ⟨l, [], [], d, .nil l, by simp, hpreferred, hlawful, by simp, .nil⟩
  | cons a as ih =>
    obtain ⟨hshown, hspelled⟩ := has a (by simp)
    obtain ⟨l₁, d₁, hscans, hpreferred₁, hlawful₁, hmeaning⟩ :=
      hspelled ((l.advance (some (.mark .comma)) [',']).advance none [' ']) rfl
    obtain ⟨l', ts, ms, d', hscans', hyield, hpreferred', hlawful', hmeaning', hforall⟩ :=
      ih (fun b hb => has b (by simp [hb])) l₁ (d := .more d l.offset d₁) ⟨hpreferred, hpreferred₁⟩
        ⟨hlawful, hlawful₁⟩
    have hitem := Scans.mark (m := .comma) rfl (fun _ => rfl) rfl (Scans.blank hshown hscans)
    refine ⟨l', _, d₁.meaning :: ms, d', hitem.append hscans' (closes_more w as), ?_, hpreferred', hlawful', ?_,
      .cons hmeaning hforall⟩
    · rw [hyield]
      simp
    · rw [hmeaning']
      simp

theorem spelled_items {as : List α} (has : ∀ a ∈ as, Shown (w a) ∧ Spelled x (w a) (R a)) :
    Spelled (.items x) (List.intercalate [',', ' '] (as.map w)) (List.Forall₂ R as) := by
  intro l hl
  cases as with
  | nil => exact ⟨l, .none, .nil l, trivial, trivial, .nil⟩
  | cons a as =>
    rw [intercalate_eq_flatMap]
    obtain ⟨l₁, d₁, hscans, hpreferred₁, hlawful₁, hmeaning⟩ := (has a (by simp)).2 l hl
    have hmore : ∀ b ∈ as, Shown (w b) ∧ Spelled x (w b) (R b) := fun b hb => has b (by simp [hb])
    obtain ⟨l', ts, ms, d', hscans', hyield, hpreferred', hlawful', hmeaning', hforall⟩ :=
      spelled_more hmore l₁ (d := .first d₁) hpreferred₁ hlawful₁
    refine ⟨l', .exactly d', ?_, hpreferred', hlawful', ?_⟩
    · rw [Derivation.yield, hyield]
      exact hscans.append hscans' (closes_more w as)
    · rw [Derivation.meaning, hmeaning']
      exact .cons hmeaning hforall

end Items

theorem spelled_list {cs : List Char} {R : List Expr → Prop} (hcs : Spelled (.items .expr) cs R) :
    Spelled .expr ('[' :: cs ++ [']']) fun e => ∃ es start, e = .list es start ∧ R es := by
  intro l hl
  have hopen : lexeme? l (.opener .bracket) ['['] = .ok (some (.mark .openBracket)) := by
    rw [lexeme?, hl.opener]
    rfl
  obtain ⟨l₁, d, hscans, hpreferred, hlawful, hmeaning⟩ :=
    hcs (l.advance (some (.mark .openBracket)) ['[']) (advance_free rfl _)
  have hclose := Scans.mark (c := ']') (m := .closeBracket) rfl (fun _ => rfl) (l := l₁) rfl (.nil _)
  exact ⟨_, .operand (.unsigned (.primary (.list l.offset d l₁.offset))),
    (Scans.mark rfl (fun _ => rfl) hopen hscans).append hclose fun rest _ => .cons (by simp) _,
    ⟨trivial, hpreferred⟩, ⟨trivial, hlawful⟩, _, _, rfl, hmeaning⟩

theorem spelled_record {cs : List Char} {R : List (String × Expr) → Prop} (hcs : Spelled (.items .field) cs R) :
    Spelled .expr ('{' :: cs ++ ['}']) fun e => ∃ fs start, e = .record fs start ∧ R fs := by
  intro l _
  obtain ⟨l₁, d, hscans, hpreferred, hlawful, hmeaning⟩ :=
    hcs (l.advance (some (.mark .openBrace)) ['{']) (advance_free rfl _)
  have hclose := Scans.mark (c := '}') (m := .closeBrace) rfl (fun _ => rfl) (l := l₁) rfl (.nil _)
  exact ⟨_, .operand (.unsigned (.primary (.record l.offset d l₁.offset))),
    (Scans.mark rfl (fun _ => rfl) rfl hscans).append hclose fun rest _ => .cons (by simp) _,
    ⟨trivial, hpreferred⟩, ⟨trivial, hlawful⟩, _, _, rfl, hmeaning⟩

theorem spelled_field {k : String} (hk : IsName k) {cs : List Char} {R : Expr → Prop} (hshown : Shown cs)
    (hcs : Spelled .expr cs R) :
    Spelled .field (k.toList ++ ':' :: ' ' :: cs) fun m => m.1 = k ∧ R m.2 := by
  intro l _
  obtain ⟨c, ds, hds, hc, hcontinue, hname⟩ := hk.word
  have hword := scans_word hc hcontinue l
  rw [← hds, String.ofList_toList, hname] at hword
  generalize l.advance (some (.name k)) k.toList = l₁ at hword
  obtain ⟨l₂, d, hscans, hpreferred, hlawful, hmeaning⟩ :=
    hcs ((l₁.advance (some (.mark .colon)) [':']).advance none [' ']) rfl
  have hvalue := Scans.mark (m := .colon) rfl (fun _ => rfl) rfl (Scans.blank hshown hscans)
  exact ⟨l₂, .field (.name k l.offset) l₁.offset d, hword.append hvalue fun rest _ => .cons (by simp) _,
    hpreferred, hlawful, rfl, hmeaning⟩

end LazyModules.Grammar
