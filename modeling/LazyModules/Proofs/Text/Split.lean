import LazyModules.Text.Split

/-!
# Splitting a text

A text is split at a character into pieces that do not hold it: there is always a piece, and what comes before one of
these characters is split apart from what comes after it.
-/
namespace LazyModules.Text

variable {sep : Char}

theorem split_ne_nil (sep : Char) (cs : List Char) : split sep cs ≠ [] := by
  cases cs with
  | nil => simp [split]
  | cons c cs =>
    unfold split
    split
    · simp
    · split <;> simp

theorem split_of_not_mem {cs : List Char} (hcs : sep ∉ cs) : split sep cs = [cs] := by
  induction cs with
  | nil => rfl
  | cons c cs ih =>
    rw [List.mem_cons, not_or] at hcs
    simp [split, ih hcs.2, Ne.symm hcs.1]

/-- The pieces of what comes before a separator, and of what comes after it. -/
theorem split_append (sep : Char) (xs ys : List Char) :
    split sep (xs ++ sep :: ys) = split sep xs ++ split sep ys := by
  induction xs with
  | nil => simp [split]
  | cons c xs ih =>
    by_cases hc : c = sep
    · simp [split, hc, ih]
    · obtain ⟨p, ps, hps⟩ := List.exists_cons_of_ne_nil (split_ne_nil sep xs)
      simp [split, hc, ih, hps]

/-- The pieces do not hold what they were split at. -/
theorem not_mem_of_mem_split {cs piece : List Char} (hpiece : piece ∈ split sep cs) :
    sep ∉ piece := by
  induction cs generalizing piece with
  | nil =>
    obtain rfl := List.mem_singleton.mp hpiece
    exact List.not_mem_nil
  | cons c cs ih =>
    rw [split] at hpiece
    split at hpiece
    · rcases List.mem_cons.mp hpiece with rfl | hpiece
      · exact List.not_mem_nil
      · exact ih hpiece
    · rename_i hc
      split at hpiece
      · obtain rfl := List.mem_singleton.mp hpiece
        exact fun hmem => hc (List.mem_singleton.mp hmem).symm
      · rename_i p ps hsplit
        rw [hsplit] at ih
        rcases List.mem_cons.mp hpiece with rfl | hpiece
        · intro hmem
          rcases List.mem_cons.mp hmem with rfl | hmem
          · exact hc rfl
          · exact ih (List.mem_cons_self ..) hmem
        · exact ih (List.mem_cons_of_mem _ hpiece)

end LazyModules.Text
