import LazyModules.Token.Scan

/-!
# What a piece can be

`Found` says once how the piece at the front of a text is found: by its first character, or by the first two. What is true of
every piece is then proved one case at a time.

**Results.** `found_of_piece?`: a piece is found in one of these ways. `piece?_pos`, `piece?_le`: it takes up at least one
character, and no more than there are. `piece?_single`: punctuation that begins no pair is a piece of one character.
-/
namespace LazyModules

theorem Numeral.length_ofChars_le (u : List Char) : (Parts.ofChars u).length ≤ u.length := by
  have hwhole : (u.takeWhile isDigit).length ≤ u.length := (List.takeWhile_prefix isDigit).length_le
  simp only [Parts.length, Parts.ofChars, List.length_take, List.length_drop]
  omega

theorem Literal.tailLength_le {u : List Char} {n : Nat} (h : tailLength u = some n) : n ≤ u.length := by
  fun_induction tailLength u generalizing n with
  | case1 => cases h
  | case2 cs =>
    cases h
    simp
  | case3 c cs hc => cases h
  | case4 c cs hc ih =>
    obtain ⟨k, hk, rfl⟩ := Option.map_eq_some_iff.mp h
    have := ih hk
    simp only [List.length_cons]
    omega
  | case5 c cs hquote hescape hc => cases h
  | case6 c cs hquote hescape hc ih =>
    obtain ⟨k, hk, rfl⟩ := Option.map_eq_some_iff.mp h
    have := ih hk
    simp only [List.length_cons]
    omega

namespace Scan

variable {c : Char} {cs : List Char} {p : Piece} {n : Nat}

/-- The run of characters with a property at the front, by its length. -/
theorem take_takeWhile (q : Char → Bool) (cs : List Char) : cs.take (cs.takeWhile q).length = cs.takeWhile q :=
  (List.prefix_iff_eq_take.mp (List.takeWhile_prefix q)).symm

/-- The piece `p` of `n` characters at the front of `c :: cs`. -/
inductive Found (c : Char) (cs : List Char) : Piece → (n : Nat) → Prop where
  | blank (hc : isSpace c = true) : Found c cs .blank ((cs.takeWhile isSpace).length + 1)
  | comment (hc : c = '#') : Found c cs .comment ((cs.takeWhile (!isLineEnd ·)).length + 1)
  | number (hc : Numeral.isDigit c = true) : Found c cs .number (Numeral.Parts.ofChars (c :: cs)).length
  | string {n : Nat} (hc : c = '"') (hn : Literal.tailLength cs = some n) : Found c cs .string (n + 1)
  | word (hc : startsWord c = true) : Found c cs .word ((cs.takeWhile continuesWord).length + 1)
  | pair {d : Char} {rest : List Char} {m : Mark} (hcs : cs = d :: rest) (hm : pair? c d = some m) : Found c cs (.mark m) 2
  | single {p : Piece} (hp : single? c = some p) : Found c cs p 1

theorem found_of_punctuation? (h : punctuation? c cs = some (p, n)) : Found c cs p n := by
  have hsingle (h : (single? c).map (·, 1) = some (p, n)) : Found c cs p n := by
    obtain ⟨p', hp, heq⟩ := Option.map_eq_some_iff.mp h
    obtain ⟨rfl, rfl⟩ := Prod.mk.inj heq
    exact .single hp
  unfold punctuation? at h
  split at h
  · exact hsingle h
  · split at h
    · rename_i hm
      obtain ⟨rfl, rfl⟩ := Prod.mk.inj (Option.some.inj h)
      exact .pair rfl hm
    · exact hsingle h

theorem found_of_piece? (h : piece? c cs = some (p, n)) : Found c cs p n := by
  unfold piece? at h
  split at h
  · rename_i hc
    obtain ⟨rfl, rfl⟩ := Prod.mk.inj (Option.some.inj h)
    exact .blank hc
  split at h
  · rename_i hc
    obtain ⟨rfl, rfl⟩ := Prod.mk.inj (Option.some.inj h)
    exact .comment hc
  split at h
  · rename_i hc
    obtain ⟨rfl, rfl⟩ := Prod.mk.inj (Option.some.inj h)
    exact .number hc
  split at h
  · rename_i hc
    obtain ⟨k, hk, heq⟩ := Option.map_eq_some_iff.mp h
    obtain ⟨rfl, rfl⟩ := Prod.mk.inj heq
    exact .string hc hk
  split at h
  · rename_i hc
    obtain ⟨rfl, rfl⟩ := Prod.mk.inj (Option.some.inj h)
    exact .word hc
  · exact found_of_punctuation? h

/-- A character that is punctuation begins nothing else. -/
theorem piece?_eq_punctuation? (hp : single? c = some p) (cs : List Char) : piece? c cs = punctuation? c cs := by
  unfold single? at hp
  split at hp
  case h_19 => cases hp
  all_goals rfl

/-- A character that is punctuation and begins no pair is a piece, whatever comes after it. -/
theorem piece?_single (hp : single? c = some p) (halone : ∀ d, pair? c d = none) (cs : List Char) :
    piece? c cs = some (p, 1) := by
  rw [piece?_eq_punctuation? hp]
  cases cs with
  | nil => simp only [punctuation?, hp, Option.map_some]
  | cons d cs => simp only [punctuation?, halone d, hp, Option.map_some]

/-- A piece takes up at least one character. -/
theorem piece?_pos (h : piece? c cs = some (p, n)) : 0 < n := by
  cases found_of_piece? h with
  | number hc =>
    simp only [Numeral.Parts.length, Numeral.Parts.ofChars, List.takeWhile_cons, hc, if_true, List.length_cons]
    omega
  | blank | comment | string | word | pair | single => omega

/-- A piece is a part of what is there. -/
theorem piece?_le (h : piece? c cs = some (p, n)) : n ≤ cs.length + 1 := by
  have htakeWhile (q : Char → Bool) : (cs.takeWhile q).length ≤ cs.length := (List.takeWhile_prefix q).length_le
  cases found_of_piece? h with
  | blank | comment | word => exact Nat.succ_le_succ (htakeWhile _)
  | number => exact Numeral.length_ofChars_le (c :: cs)
  | string hc hn => exact Nat.succ_le_succ (Literal.tailLength_le hn)
  | pair hcs hm => simp [hcs]
  | single hp => exact Nat.succ_le_succ (Nat.zero_le _)

end Scan

end LazyModules
