import Mathlib.Data.List.TakeWhile
import Mathlib.Order.Monotone.Basic
import Mathlib.Tactic.Conv
import LazyModules.Report

/-!
# Line breaks

A text may write CR LF where another has LF. Each offset of the one corresponds to an offset of the other, and the
two places have the same row and the same column. The lines that are shown of both are the same.

**Results.** `lines_induction`: a text is a last line, or a line and a text after it. `drop_crlf`: what comes after
corresponding offsets corresponds. `rowCol_crlf`, `shownLine_crlf`: rows, columns and lines.
-/
namespace LazyModules.Text

/-! ## Corresponding offsets -/

/-- A text with CR LF for every LF. -/
def crlf : List Char → List Char
  | [] => []
  | c :: cs => if c = '\n' then '\r' :: '\n' :: crlf cs else c :: crlf cs

/-- The offset in `crlf cs` of what stands at an offset of `cs`. -/
def crlfOffset (cs : List Char) (i : Nat) : Nat := i + (cs.take i).count '\n'

theorem crlf_append (cs ds : List Char) : crlf (cs ++ ds) = crlf cs ++ crlf ds := by
  induction cs with
  | nil => rfl
  | cons c cs ih =>
    by_cases hc : c = '\n'
    · simp [crlf, hc, ih]
    · simp [crlf, hc, ih]

theorem crlf_of_not_mem {cs : List Char} (h : '\n' ∉ cs) : crlf cs = cs := by
  induction cs with
  | nil => rfl
  | cons c cs ih =>
    obtain ⟨hc, hcs⟩ := not_or.mp (mt List.mem_cons.mpr h)
    rw [crlf, if_neg (Ne.symm hc), ih hcs]

theorem crlf_line {x : List Char} (hx : '\n' ∉ x) (y : List Char) :
    crlf (x ++ '\n' :: y) = x ++ '\r' :: '\n' :: crlf y := by
  rw [crlf_append, crlf_of_not_mem hx]
  rfl

theorem mem_or_eq_of_mem_crlf {c : Char} {cs : List Char} (h : c ∈ crlf cs) : c ∈ cs ∨ c = '\r' := by
  induction cs with
  | nil => cases h
  | cons d cs ih =>
    rw [crlf] at h
    split at h <;> grind

theorem length_crlf (cs : List Char) : (crlf cs).length = cs.length + cs.count '\n' := by
  induction cs with
  | nil => rfl
  | cons c cs ih =>
    by_cases hc : c = '\n'
    · simp only [crlf, hc, if_true, List.length_cons, ih, List.count_cons_self]
      omega
    · simp only [crlf, if_neg hc, List.length_cons, ih, List.count_cons_of_ne hc]
      omega

theorem crlfOffset_length (cs : List Char) : crlfOffset cs cs.length = (crlf cs).length := by
  rw [crlfOffset, List.take_length, length_crlf]

@[simp] theorem crlfOffset_zero (cs : List Char) : crlfOffset cs 0 = 0 := rfl

theorem crlfOffset_append (cs ds : List Char) (i : Nat) :
    crlfOffset (cs ++ ds) (cs.length + i) = (crlf cs).length + crlfOffset ds i := by
  simp only [crlfOffset, List.take_length_add_append, List.count_append, length_crlf]
  omega

theorem crlfOffset_append_length (cs ds : List Char) : crlfOffset (cs ++ ds) cs.length = (crlf cs).length :=
  crlfOffset_append cs ds 0

theorem crlfOffset_strictMono (cs : List Char) : StrictMono (crlfOffset cs) := by
  intro i j hij
  have hcount : (cs.take i).count '\n' ≤ (cs.take j).count '\n' :=
    (List.take_sublist_take_left hij.le).count_le '\n'
  simp only [crlfOffset]
  omega

/-- What comes after corresponding offsets corresponds. -/
theorem drop_crlf (cs : List Char) {i : Nat} (hi : i ≤ cs.length) :
    (crlf cs).drop (crlfOffset cs i) = crlf (cs.drop i) := by
  have hlength : (cs.take i).length = i := List.length_take_of_le hi
  conv_lhs => rw [← List.take_append_drop i cs]
  have hoffset := crlfOffset_append_length (cs.take i) (cs.drop i)
  rw [hlength] at hoffset
  rw [hoffset, crlf_append, List.drop_left]

/-! ## Line by line -/

/-- A text is a last line, or a line and a text after it. -/
theorem lines_induction {P : List Char → Prop} (last : ∀ x, '\n' ∉ x → P x)
    (more : ∀ x y, '\n' ∉ x → P y → P (x ++ '\n' :: y)) (cs : List Char) : P cs := by
  by_cases h : '\n' ∈ cs
  · obtain ⟨x, y, rfl, hx⟩ := List.eq_append_cons_of_mem h
    exact more x y hx (lines_induction last more y)
  · exact last cs h
termination_by cs.length
decreasing_by
  subst_vars
  simp only [List.length_append, List.length_cons]
  omega

/-- The three ways to end a line before `y`. A CR alone ends it unless a LF comes next. -/
inductive IsBreak (y : List Char) : List Char → Prop
  | lf : IsBreak y ['\n']
  | crlf : IsBreak y ['\r', '\n']
  | cr (h : y.head? ≠ some '\n') : IsBreak y ['\r']

/-- Characters that end no line. -/
def Unbroken (x : List Char) : Prop := '\n' ∉ x ∧ '\r' ∉ x

theorem laterStarts_add (cs : List Char) (i k : Nat) :
    laterStarts cs (k + i) = (laterStarts cs i).map (k + ·) := by
  fun_induction laterStarts cs i with
  | case1 => rfl
  | case2 i cs ih => simpa [laterStarts, Nat.add_assoc] using ih
  | case3 i c cs hne hc ih => simpa [laterStarts, hne, hc, Nat.add_assoc] using ih
  | case4 i c cs hne hc ih => simpa [laterStarts, hne, hc, Nat.add_assoc] using ih

theorem laterStarts_cons_of_ne {c : Char} (hcr : c ≠ '\r') (hlf : c ≠ '\n') (cs : List Char) (i : Nat) :
    laterStarts (c :: cs) i = laterStarts cs (i + 1) := by
  rw [laterStarts]
  · simp [hcr, hlf]
  · rintro cs' rfl
    exact fun _ => hcr rfl

theorem laterStarts_unbroken {x : List Char} (hx : Unbroken x) (cs : List Char) (i : Nat) :
    laterStarts (x ++ cs) i = laterStarts cs (i + x.length) := by
  induction x generalizing i with
  | nil => rfl
  | cons c x ih =>
    obtain ⟨hlf, hlfs⟩ := not_or.mp (mt List.mem_cons.mpr hx.1)
    obtain ⟨hcr, hcrs⟩ := not_or.mp (mt List.mem_cons.mpr hx.2)
    rw [List.cons_append, laterStarts_cons_of_ne (Ne.symm hcr) (Ne.symm hlf), ih ⟨hlfs, hcrs⟩, List.length_cons]
    congr 1
    omega

theorem lineStarts_last {x : List Char} (hx : Unbroken x) : lineStarts x = [0] := by
  have h := laterStarts_unbroken hx [] 0
  rw [List.append_nil] at h
  rw [lineStarts, h]
  rfl

theorem lineStarts_line {x brk y : List Char} (hx : Unbroken x) (hbrk : IsBreak y brk) :
    lineStarts (x ++ brk ++ y) = 0 :: (lineStarts y).map ((x ++ brk).length + ·) := by
  have hbreak (i : Nat) : laterStarts (brk ++ y) i = (i + brk.length) :: laterStarts y (i + brk.length) := by
    cases hbrk with
    | lf | crlf => rfl
    | cr h =>
      rw [List.singleton_append, laterStarts]
      · rfl
      · intro cs _ hy
        exact h (by rw [hy]; rfl)
  rw [lineStarts, List.append_assoc, laterStarts_unbroken hx, hbreak, lineStarts, List.map_cons, ← laterStarts_add]
  simp [List.length_append]

/-! ## Rows and columns -/

/-- The row of an offset counts the later lines that begin up to there, and the column counts from the last of
them. -/
theorem rowCol_natCast (cs : List Char) (p : Nat) :
    rowCol cs p = ((((laterStarts cs 0).filter (· ≤ p)).length : Int) + 1,
      (p : Int) - (((laterStarts cs 0).filter (· ≤ p)).getLastD 0 : Nat) + 1) := by
  have hcast : (fun s : Nat => decide ((s : Int) ≤ p)) = fun s => decide (s ≤ p) := by
    funext s
    simp
  rw [rowCol, hcast, lineStarts, List.filter_cons_of_pos (by simp)]
  simp only [List.getLastD_cons]

theorem one_le_row (cs : List Char) (p : Nat) : 1 ≤ (rowCol cs p).1 := by
  rw [rowCol_natCast]
  omega

theorem rowCol_last {x : List Char} (hx : Unbroken x) (p : Nat) : rowCol x p = (1, (p : Int) + 1) := by
  have hlater : laterStarts x 0 = [] := (List.cons.inj (lineStarts_last hx)).2
  rw [rowCol_natCast, hlater]
  simp

section Line

variable {x brk y : List Char} (hx : Unbroken x) (hbrk : IsBreak y brk)
include hx hbrk

theorem rowCol_line {p : Nat} (hp : p < (x ++ brk).length) : rowCol (x ++ brk ++ y) p = (1, (p : Int) + 1) := by
  have hlater := (List.cons.inj (lineStarts_line hx hbrk)).2
  have hnone : ((lineStarts y).map ((x ++ brk).length + ·)).filter (· ≤ p) = [] := by
    simp only [List.filter_eq_nil_iff, List.mem_map, decide_eq_true_eq]
    rintro _ ⟨s, -, rfl⟩
    omega
  rw [rowCol_natCast, hlater, hnone]
  simp

theorem rowCol_next (p : Nat) :
    rowCol (x ++ brk ++ y) ((x ++ brk).length + p : Nat) = ((rowCol y p).1 + 1, (rowCol y p).2) := by
  have hlater := (List.cons.inj (lineStarts_line hx hbrk)).2
  have hfilter : ((lineStarts y).map ((x ++ brk).length + ·)).filter (· ≤ (x ++ brk).length + p) =
      ((lineStarts y).filter (· ≤ p)).map ((x ++ brk).length + ·) := by
    rw [List.filter_map]
    congr 1
    refine List.filter_congr fun s _ => ?_
    simp
  rw [rowCol_natCast, rowCol_natCast, hlater, hfilter, lineStarts, List.filter_cons_of_pos (by simp)]
  simp only [List.map_cons, List.length_cons, List.length_map, List.getLastD_cons]
  generalize (laterStarts y 0).filter (· ≤ p) = ss
  have hlast : (ss.map ((x ++ brk).length + ·)).getLastD ((x ++ brk).length + 0) = (x ++ brk).length + ss.getLastD 0 := by
    rw [List.getLastD_eq_getLast?, List.getLast?_map, List.getLastD_eq_getLast?]
    cases ss.getLast? <;> rfl
  rw [hlast]
  refine Prod.ext ?_ ?_ <;> push_cast <;> omega

theorem lineOfRow_line : lineOfRow (x ++ brk ++ y) 1 = x ++ brk := by
  rw [lineOfRow, lineStarts_line hx hbrk, lineStarts]
  exact List.take_left

theorem lineOfRow_next {r : Int} (hr : 1 ≤ r) : lineOfRow (x ++ brk ++ y) (r + 1) = lineOfRow y r := by
  have hrow : (r + 1).toNat - 1 = (r.toNat - 1) + 1 := by omega
  simp only [lineOfRow, lineStarts_line hx hbrk, hrow, List.drop_succ_cons, ← List.map_drop]
  match (lineStarts y).drop (r.toNat - 1) with
  | [] => rfl
  | [s] => exact List.drop_length_add_append ..
  | s :: e :: _ =>
    simp only [List.map_cons, List.take_length_add_append, List.drop_length_add_append]

end Line

/-- The characters that stay away from the end of a line when it is shown. -/
abbrev endsLine (c : Char) : Bool := c = '\r' || c = '\n'

theorem trimEnd_append {p : Char → Bool} {brk : List Char} (hbrk : ∀ c ∈ brk, p c = true) (x : List Char) :
    trimEnd p (x ++ brk) = trimEnd p x := by
  rw [trimEnd, trimEnd, List.reverse_append, List.dropWhile_append_of_pos fun c hc => hbrk c (List.mem_reverse.mp hc)]

theorem length_trimEnd_le (p : Char → Bool) (x : List Char) : (trimEnd p x).length ≤ x.length := by
  rw [trimEnd, List.length_reverse]
  exact (List.dropWhile_suffix p).length_le.trans_eq List.length_reverse

theorem crlfOffset_of_le {x : List Char} (hx : '\n' ∉ x) (y : List Char) {i : Nat} (hi : i ≤ x.length) :
    crlfOffset (x ++ y) i = i := by
  have hcount : (x.take i).count '\n' = 0 := List.count_eq_zero.mpr fun h => hx (List.mem_of_mem_take h)
  rw [crlfOffset, List.take_append_of_le_length hi, hcount]
  rfl

theorem crlfOffset_next {x : List Char} (hx : '\n' ∉ x) (y : List Char) (i : Nat) :
    crlfOffset (x ++ '\n' :: y) (x.length + 1 + i) = x.length + 2 + crlfOffset y i := by
  have h := crlfOffset_append (x ++ ['\n']) y i
  rw [crlf_line hx, List.append_assoc, List.length_append, List.length_append] at h
  exact h

/-- Corresponding offsets have the same row and the same column. -/
theorem rowCol_crlf {cs : List Char} (hcs : '\r' ∉ cs) (p : Nat) :
    rowCol (crlf cs) (crlfOffset cs p : Nat) = rowCol cs p := by
  induction cs using lines_induction generalizing p with
  | last x hx =>
    have hoffset : crlfOffset x p = p := by
      rw [crlfOffset, List.count_eq_zero.mpr fun h => hx (List.mem_of_mem_take h), Nat.add_zero]
    rw [crlf_of_not_mem hx, hoffset]
  | more x y hx ih =>
    obtain ⟨hcrx, hcry⟩ : '\r' ∉ x ∧ '\r' ∉ y := by simpa using hcs
    have hlf (p : Nat) := rowCol_line ⟨hx, hcrx⟩ (.lf (y := y)) (p := p)
    have hcrlf (p : Nat) := rowCol_line ⟨hx, hcrx⟩ (.crlf (y := crlf y)) (p := p)
    have hlf' (p : Nat) := rowCol_next ⟨hx, hcrx⟩ (.lf (y := y)) p
    have hcrlf' (p : Nat) := rowCol_next ⟨hx, hcrx⟩ (.crlf (y := crlf y)) p
    simp only [List.append_assoc, List.cons_append, List.nil_append, List.length_append, List.length_cons,
      List.length_nil] at hlf hcrlf hlf' hcrlf'
    rw [crlf_line hx]
    by_cases hp : p ≤ x.length
    · rw [crlfOffset_of_le hx _ hp, hlf p (by omega), hcrlf p (by omega)]
    · obtain ⟨q, rfl⟩ := Nat.exists_eq_add_of_lt (Nat.lt_of_not_le hp)
      rw [show x.length + q + 1 = x.length + 1 + q by omega, crlfOffset_next hx]
      rw [hlf' q, hcrlf' (crlfOffset y q), ih hcry q]

/-- The lines that are shown are the same. -/
theorem shownLine_crlf {cs : List Char} (hcs : '\r' ∉ cs) {r : Int} (hr : 1 ≤ r) :
    trimEnd endsLine (lineOfRow (crlf cs) r) = trimEnd endsLine (lineOfRow cs r) := by
  induction cs using lines_induction generalizing r with
  | last x hx => rw [crlf_of_not_mem hx]
  | more x y hx ih =>
    obtain ⟨hcrx, hcry⟩ : '\r' ∉ x ∧ '\r' ∉ y := by simpa using hcs
    have hlf := lineOfRow_line ⟨hx, hcrx⟩ (.lf (y := y))
    have hcrlf := lineOfRow_line ⟨hx, hcrx⟩ (.crlf (y := crlf y))
    have hlf' (r : Int) := lineOfRow_next ⟨hx, hcrx⟩ (.lf (y := y)) (r := r)
    have hcrlf' (r : Int) := lineOfRow_next ⟨hx, hcrx⟩ (.crlf (y := crlf y)) (r := r)
    simp only [List.append_assoc, List.cons_append, List.nil_append] at hlf hcrlf hlf' hcrlf'
    rw [crlf_line hx]
    rcases Int.lt_or_eq_of_le hr with hr | rfl
    · obtain ⟨r, rfl⟩ : ∃ r' : Int, r = r' + 1 := ⟨r - 1, by omega⟩
      rw [hlf' r (by omega), hcrlf' r (by omega), ih hcry (by omega)]
    · rw [hlf, hcrlf, trimEnd_append (by simp), trimEnd_append (by simp)]

end LazyModules.Text
