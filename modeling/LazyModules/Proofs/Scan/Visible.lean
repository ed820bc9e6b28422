import LazyModules.Proofs.Lines.Scanning
import LazyModules.Proofs.Scan.Steps

/-!
# What shows and what does not

A piece that says something is visible from its first character on and stays in its line. A piece that says nothing is
blanks, or a comment up to the end of its line.

**Results.** `Takes.visible`: a piece that says something. `Takes.silent`: a piece that says nothing.
-/
namespace LazyModules.Scan

variable {text : List Char} {l : Layout} {p : Piece} {w : List Char}

theorem visible_of_spelled {c : Char} {cs front : List Char} (hspelled : p.Spelled front) (hfront : front <+: c :: cs) :
    '!' ≤ c ∧ c ≤ '~' := by
  obtain ⟨m, rfl⟩ : ∃ m : Mark, front = m.text.toList := by
    cases p with
    | mark m => exact ⟨m, hspelled.symm⟩
    | opener o => exact ⟨o.opening, hspelled.2.symm⟩
    | blank | comment | number | string | word => exact hspelled.elim
  obtain ⟨hne, hvisible⟩ := m.visible_text
  obtain ⟨d, ds, hfront'⟩ := List.exists_cons_of_ne_nil hne
  rw [hfront'] at hfront hvisible
  obtain ⟨rfl, -⟩ := List.cons_prefix_cons.mp hfront
  exact hvisible d List.mem_cons_self

/-- A piece is blanks, or it begins with a visible character. -/
theorem visible_of_piece? {c : Char} {cs : List Char} {n : Nat} (h : piece? c cs = some (p, n)) :
    isSpace c = true ∧ p = .blank ∨ isSpace c = false ∧ '!' ≤ c ∧ c ≤ '~' := by
  cases hspace : isSpace c with
  | true =>
    rw [piece?, if_pos hspace] at h
    exact .inl ⟨rfl, (Prod.mk.inj (Option.some.inj h)).1.symm⟩
  | false =>
    refine .inr ⟨rfl, ?_⟩
    cases found_of_piece? h with
    | blank hc =>
      rw [hspace] at hc
      cases hc
    | comment hc | string hc =>
      subst hc
      decide
    | number hc | word hc => exact visible_of_continuesWord (by simp [continuesWord, hc])
    | @pair d rest m hcs hm => exact visible_of_spelled (p := .mark m) (text_of_pair? hm) (List.prefix_append [c, d] rest)
    | single hp => exact visible_of_spelled (spelled_of_single? hp) (List.prefix_append [c] cs)

/-- A piece that says something is visible from its first character on, and holds no line feed. -/
theorem Takes.visible {x : Lexeme} (h : Takes text l p w (some x)) :
    '\n' ∉ w ∧ ∃ c cs, w = c :: cs ∧ '!' ≤ c ∧ c ≤ '~' := by
  obtain ⟨c, cs, rest, rfl, -, hpiece⟩ := h.cut
  rcases visible_of_piece? hpiece with ⟨-, rfl⟩ | ⟨hspace, hc⟩
  · cases h.meaning
  · obtain ⟨-, hline, -⟩ := (piece?_crlf hspace (cs ++ rest)).2 p _ hpiece
    rw [← List.cons_append, List.take_left] at hline
    exact ⟨hline, c, cs, rfl, hc⟩

/-- A run of characters with a property is cut off by one that lacks it. -/
theorem takeWhile_cut {q : Char → Bool} {cs rest : List Char} (h : cs.length = ((cs ++ rest).takeWhile q).length) :
    (∀ c ∈ cs, q c = true) ∧ ∀ c ∈ rest.head?, q c = false := by
  have hrun : (cs ++ rest).takeWhile q = cs := by
    have hfront := List.prefix_iff_eq_take.mp (List.takeWhile_prefix (l := cs ++ rest) q)
    rw [hfront, ← h, List.take_left]
  refine ⟨fun c hc => ?_, fun c hc => ?_⟩
  · rw [← hrun] at hc
    exact List.mem_takeWhile_imp hc
  · have hsplit := List.takeWhile_append_dropWhile (p := q) (l := cs ++ rest)
    rw [hrun] at hsplit
    rw [← List.append_cancel_left hsplit] at hc
    exact head?_dropWhile_eq_false hc

/-- A piece that says nothing is blanks, or a comment up to the end of its line. -/
theorem Takes.silent (h : Takes text l p w none) :
    (∀ c ∈ w, isSpace c = true) ∨ ∃ cs, w = '#' :: cs ∧ ∀ c ∈ cs, isLineEnd c = false := by
  obtain ⟨c, cs, rest, rfl, -, hpiece⟩ := h.cut
  have hsilent : p = .blank ∨ p = .comment := by
    have hsays := h.meaning
    cases p with
    | blank => exact .inl rfl
    | comment => exact .inr rfl
    | number | string =>
      simp only [lexeme?] at hsays
      split at hsays <;> cases hsays
    | word | mark m | opener o => cases hsays
  generalize hn : (c :: cs).length = n at hpiece
  cases found_of_piece? hpiece with
  | blank hc =>
    refine .inl fun d hd => ?_
    rcases List.mem_cons.mp hd with rfl | hd
    · exact hc
    · exact (takeWhile_cut (Nat.succ.inj hn)).1 d hd
  | comment hc =>
    subst hc
    exact .inr ⟨cs, rfl, fun d hd => by simpa using (takeWhile_cut (Nat.succ.inj hn)).1 d hd⟩
  | number | string | word | pair => rcases hsilent with hp | hp <;> cases hp
  | single hp =>
    have hspelled := spelled_of_single? hp
    rcases hsilent with rfl | rfl <;> exact hspelled.elim

end LazyModules.Scan
