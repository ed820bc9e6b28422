import LazyModules.Proofs.Blame.Pointers
import LazyModules.Proofs.Lines.Breaks

/-!
# The first occurrence of a term

A report that is given no offset for a term looks for the first place where the term stands as a whole word. It looks
at characters and not at tokens: a comment, a string or the name of a field will do.

**Results.** `findTerm_none`: the place is the first of all where the term stands as a whole word, if there is any.
`findTerm_first_whole_word`: what is found for any term, with an offset or without.
`rowCol_inj`: offsets in a text that have the same row and column are the same.
-/
namespace LazyModules

namespace Locate

/-- A text has a term at an offset as a whole word: no word goes on across either border of it. -/
def Whole (text term : List Char) (i : Nat) : Prop :=
  term <+: text.drop i ∧ joins (text.take i).getLast? term.head? = false ∧
    joins term.getLast? (text.drop (i + term.length)).head? = false

/-- A whole word at an offset, and none before it. -/
def FirstWhole (text term : List Char) (i : Nat) : Prop := Whole text term i ∧ ∀ k < i, ¬ Whole text term k

theorem standsHere_iff (term front cs : List Char) :
    standsHere term front.getLast? cs = true ↔ Whole (front ++ cs) term front.length := by
  rw [standsHere, Whole, List.take_left, List.drop_left, ← List.drop_drop, List.drop_left]
  simp only [Bool.and_eq_true, List.isPrefixOf_iff_prefix, Bool.not_eq_true', and_assoc]

/-- The search from `front` on finds the first place that comes then. -/
theorem firstWhole_eq_some_iff {term : List Char} (hterm : term ≠ []) (front cs : List Char) (j : Nat) :
    firstWhole term front.getLast? cs front.length = some j ↔
      front.length ≤ j ∧ Whole (front ++ cs) term j ∧ ∀ k, front.length ≤ k → k < j → ¬ Whole (front ++ cs) term k := by
  induction cs generalizing front with
  | nil =>
    refine ⟨nofun, fun ⟨hle, hwhole, _⟩ => ?_⟩
    have hnil : (front ++ []).drop j = [] := by
      rw [List.append_nil]
      exact List.drop_eq_nil_of_le hle
    rw [Whole, hnil, List.prefix_nil] at hwhole
    exact absurd hwhole.1 hterm
  | cons c cs ih =>
    have hhere := standsHere_iff term front (c :: cs)
    rw [firstWhole]
    split
    · rename_i hstands
      have hwhole := hhere.mp hstands
      refine ⟨fun h => ?_, fun ⟨hle, _, hfirst⟩ => ?_⟩
      · obtain rfl := Option.some.inj h
        exact ⟨Nat.le_refl _, hwhole, fun k hle hlt => absurd hlt (Nat.not_lt.mpr hle)⟩
      · rcases Nat.eq_or_lt_of_le hle with heq | hlt
        · rw [heq]
        · exact absurd hwhole (hfirst _ (Nat.le_refl _) hlt)
    · rename_i hstands
      have hnot : ¬ Whole (front ++ c :: cs) term front.length := fun h => hstands (hhere.mpr h)
      have hnext := ih (front ++ [c])
      rw [List.getLast?_concat, List.length_append, List.length_singleton, List.append_assoc, List.singleton_append] at hnext
      rw [hnext]
      constructor
      · intro ⟨hle, hwhole, hfirst⟩
        refine ⟨by omega, hwhole, fun k hk hlt => ?_⟩
        rcases Nat.eq_or_lt_of_le hk with rfl | hk
        · exact hnot
        · exact hfirst k hk hlt
      · intro ⟨hle, hwhole, hfirst⟩
        have hne : j ≠ front.length := by
          rintro rfl
          exact hnot hwhole
        exact ⟨by omega, hwhole, fun k hk hlt => hfirst k (by omega) hlt⟩

/-- A term that can be looked for. -/
theorem searchable {term : List Char} (hterm : term ≠ []) (hline : '\n' ∉ term) :
    (term.isEmpty || term.contains '\n') = false := by
  simp [hterm, hline]

theorem findTerm_eq_none_of_unsearchable {term : List Char} (h : term = [] ∨ '\n' ∈ term) (text : List Char)
    (near : Option Int) : findTerm text term near = none := by
  have hunsearchable : (term.isEmpty || term.contains '\n') = true := by simpa using h
  simp only [findTerm, hunsearchable, if_true]

/-- The search without an offset finds where a term first stands as a whole word. -/
theorem findTerm_eq_some_iff {term : List Char} (hterm : term ≠ []) (hline : '\n' ∉ term) (text : List Char) (j : Nat) :
    findTerm text term none = some (j : Int) ↔ FirstWhole text term j := by
  have hfirst := firstWhole_eq_some_iff hterm [] text j
  simp only [List.nil_append, List.length_nil, Nat.zero_le, true_and, List.getLast?_nil, forall_const] at hfirst
  simp only [findTerm, searchable hterm hline, Bool.false_eq_true, if_false]
  rw [FirstWhole, ← hfirst, Option.map_eq_some_iff]
  constructor
  · rintro ⟨i, hi, heq⟩
    obtain rfl : i = j := Int.ofNat.inj heq
    exact hi
  · exact fun h => ⟨j, h, rfl⟩

/-- Without an offset, a term is found where it first stands as a whole word. -/
theorem findTerm_none {term : List Char} (hterm : Text.Visible term) (text : List Char) (j : Nat) :
    findTerm text term none = some (j : Int) ↔ FirstWhole text term j := by
  have hline : '\n' ∉ term := fun hmem => absurd (hterm.2 _ hmem).1 (by decide)
  exact findTerm_eq_some_iff hterm.1 hline text j

/-- A term that is found without an offset is found at one that is not negative. -/
theorem eq_natCast_of_findTerm {text term : List Char} {p : Int} (h : findTerm text term none = some p) :
    ∃ j : Nat, p = j := by
  simp only [findTerm] at h
  split at h
  · cases h
  · obtain ⟨j, -, rfl⟩ := Option.map_eq_some_iff.mp h
    exact ⟨j, rfl⟩

/-- The search finds nothing if the term stands nowhere as a whole word. -/
theorem findTerm_eq_none_iff {term : List Char} (hterm : term ≠ []) (hline : '\n' ∉ term) (text : List Char) :
    findTerm text term none = none ↔ ∀ i, ¬ Whole text term i := by
  constructor
  · -- the least of the places would have been found
    intro hnone i hwhole
    induction i using Nat.strongRecOn with
    | ind i ih =>
      have hfound := (findTerm_eq_some_iff hterm hline text i).mpr ⟨hwhole, fun k hk hwhole => ih k hk hwhole⟩
      rw [hnone] at hfound
      cases hfound
  · intro hnowhere
    cases hfound : findTerm text term none with
    | none => rfl
    | some p =>
      obtain ⟨j, rfl⟩ := eq_natCast_of_findTerm hfound
      exact absurd ((findTerm_eq_some_iff hterm hline text j).mp hfound).1 (hnowhere j)

/-- A term is found at the offset where it is expected, if it is there. -/
theorem findTerm_expected {text term : List Char} (hterm : term ≠ []) (hline : '\n' ∉ term) {n : Nat}
    (hhere : term <+: text.drop n) : findTerm text term (some (n : Int)) = some (n : Int) := by
  simp only [findTerm, searchable hterm hline, Bool.false_eq_true, if_false, sliceFrom_natCast]
  rw [if_pos (List.isPrefixOf_iff_prefix.mpr hhere)]

/-- An offset where the term is not makes no difference. -/
theorem findTerm_unexpected {text term : List Char} (hterm : term ≠ []) (hline : '\n' ∉ term) {near : Option Nat}
    (hnot : ¬ ∃ n ∈ near, term <+: text.drop n) :
    findTerm text term (near.map Int.ofNat) = findTerm text term none := by
  cases near with
  | none => rfl
  | some n =>
    have hslice : Text.sliceFrom text (Int.ofNat n) = text.drop n := sliceFrom_natCast text n
    have hprefix : ¬ term.isPrefixOf (text.drop n) = true := by
      rw [List.isPrefixOf_iff_prefix]
      exact fun hhere => hnot ⟨n, rfl, hhere⟩
    simp only [findTerm, searchable hterm hline, Bool.false_eq_true, if_false, Option.map_some, hslice]
    rw [if_neg hprefix]

/-! ## Whole words -/

/-- A text has a term at an offset. If the term begins or ends like a word, nothing that stands right before or right
after it belongs to a word. -/
structure WholeWord (text term : List Char) (i : Nat) : Prop where
  here : term <+: text.drop i
  before : ∀ c ∈ term.head?, Text.isWord c = true → ∀ b ∈ (text.take i).getLast?, Text.isWord b = false
  after : ∀ c ∈ term.getLast?, Text.isWord c = true → ∀ b ∈ (text.drop (i + term.length)).head?, Text.isWord b = false

theorem joins_eq_false_iff (a b : Option Char) :
    joins a b = false ↔ ∀ c ∈ a, Text.isWord c = true → ∀ d ∈ b, Text.isWord d = false := by
  cases a <;> cases b <;> simp [joins]

theorem joins_comm (a b : Option Char) : joins a b = joins b a := Bool.and_comm ..

theorem whole_iff_wholeWord (text term : List Char) (i : Nat) : Whole text term i ↔ WholeWord text term i := by
  rw [Whole, joins_comm (text.take i).getLast?, joins_eq_false_iff, joins_eq_false_iff]
  exact ⟨fun ⟨here, before, after⟩ => ⟨here, before, after⟩, fun h => ⟨h.here, h.before, h.after⟩⟩

/-- A term is found where it is expected, and else where it first stands as a whole word. Nothing is found if it is
empty or goes over the end of a line, or if there is no such place. -/
theorem findTerm_first_whole_word (text term : List Char) (near : Option Nat) :
    let found := findTerm text term (near.map Int.ofNat)
    let expected := ∃ n ∈ near, term <+: text.drop n
    (term ≠ [] ∧ '\n' ∉ term → ∀ n ∈ near, term <+: text.drop n → found = some (n : Int)) ∧
    (term ≠ [] ∧ '\n' ∉ term → ¬ expected → ∀ p : Int,
      found = some p ↔ ∃ i : Nat, p = i ∧ WholeWord text term i ∧ ∀ k < i, ¬ WholeWord text term k) ∧
    (found = none ↔ term = [] ∨ '\n' ∈ term ∨ ¬ expected ∧ ∀ i, ¬ WholeWord text term i) := by
  intro found expected
  simp only [← whole_iff_wholeWord]
  have hexpected (h : term ≠ [] ∧ '\n' ∉ term) (n : Nat) (hn : n ∈ near) (hhere : term <+: text.drop n) :
      found = some (n : Int) := by
    obtain rfl := hn
    exact findTerm_expected h.1 h.2 hhere
  have hunexpected (h : term ≠ [] ∧ '\n' ∉ term) (hnot : ¬ expected) : found = findTerm text term none :=
    findTerm_unexpected h.1 h.2 hnot
  refine ⟨hexpected, fun h hnot p => ?_, ?_⟩
  · have hfirst (i : Nat) := findTerm_eq_some_iff h.1 h.2 text i
    rw [hunexpected h hnot]
    constructor
    · intro hfound
      obtain ⟨i, rfl⟩ := eq_natCast_of_findTerm hfound
      exact ⟨i, rfl, (hfirst i).mp hfound⟩
    · rintro ⟨i, rfl, hwhole⟩
      exact (hfirst i).mpr hwhole
  · by_cases h : term ≠ [] ∧ '\n' ∉ term
    · by_cases hyes : expected
      · have hfound : found ≠ none := by
          obtain ⟨n, hn, hhere⟩ := hyes
          simp [hexpected h n hn hhere]
        simp [hfound, h, hyes]
      · rw [hunexpected h hyes, findTerm_eq_none_iff h.1 h.2]
        simp [h, hyes]
    · have hunsearchable : term = [] ∨ '\n' ∈ term := by rwa [not_and_or, not_not, not_not] at h
      have hnone : found = none := findTerm_eq_none_of_unsearchable hunsearchable text _
      simp only [hnone, true_iff]
      exact hunsearchable.imp_right .inl

example : findTerm "xs = x + x1".toList ['x'] (some 3) = some 5 := by decide +kernel

end Locate

namespace Text

/-- Offsets that have the same row and column are the same. -/
theorem rowCol_inj (cs : List Char) {p q : Nat} (h : rowCol cs p = rowCol cs q) : p = q := by
  wlog hle : p ≤ q generalizing p q
  · exact (this h.symm (Nat.le_of_not_le hle)).symm
  rw [rowCol_natCast, rowCol_natCast] at h
  obtain ⟨hrow, hcolumn⟩ := Prod.mk.inj h
  -- the lines that begin up to `p` are among those that begin up to `q`, and as many
  have hlines : (laterStarts cs 0).filter (· ≤ p) = (laterStarts cs 0).filter (· ≤ q) := by
    have hsublist : ((laterStarts cs 0).filter (· ≤ p)).Sublist ((laterStarts cs 0).filter (· ≤ q)) := by
      refine List.monotone_filter_right _ fun s hs => ?_
      simp only [decide_eq_true_eq] at hs ⊢
      omega
    exact hsublist.eq_of_length (by omega)
  rw [hlines] at hcolumn
  omega

end Text

end LazyModules
