import LazyModules.Proofs.Blame.Terms
import LazyModules.Proofs.Lines.Reports

/-!
# Positions in reports

A report shows the line of a place in a text, behind its row and its column, with the place highlighted. The lines of a
text, each with its break, are the text: so the characters of the lines above and the column come to the offset of the
place. A term without line breaks stands in one line as a whole. A syntax error may be at the end of a line, between CR
and LF, or at the end of the text, where there is no character to show.

**Results.**
* `Text.exists_place`, `Text.Place.unique`: every offset is in one line, which has the row and the column.
* `Text.Place.term_inside`, `Text.Place.glyph`: what stands at an offset stands in its line.
* `Report.positions_true`: what is printed of a term and of a syntax error.
-/
namespace LazyModules

namespace Text

/-! ## Lines -/

/-- The characters of a line, and the break that ends it. The last line of a text has none. -/
structure Line where
  body : List Char
  brk : List Char
  deriving DecidableEq

def Line.chars (l : Line) : List Char := l.body ++ l.brk

/-- A character in front of the first line. -/
def consFirst (c : Char) : List Line → List Line
  | [] => [⟨[c], []⟩]
  | l :: ls => ⟨c :: l.body, l.brk⟩ :: ls

/-- The lines of a text. CR LF, CR and LF end a line. -/
def lines : List Char → List Line
  | [] => [⟨[], []⟩]
  | '\r' :: '\n' :: cs => ⟨[], ['\r', '\n']⟩ :: lines cs
  | c :: cs => if c = '\r' || c = '\n' then ⟨[], [c]⟩ :: lines cs else consFirst c (lines cs)

theorem lines_cons_of_ne {c : Char} (hcr : c ≠ '\r') (hlf : c ≠ '\n') (cs : List Char) :
    lines (c :: cs) = consFirst c (lines cs) := by
  rw [lines]
  · simp [hcr, hlf]
  · rintro cs' rfl
    exact fun _ => hcr rfl

/-- Characters that end no line are in front of the first. -/
theorem lines_unbroken {x cs : List Char} (hx : Unbroken x) {l : Line} {ls : List Line} (h : lines cs = l :: ls) :
    lines (x ++ cs) = ⟨x ++ l.body, l.brk⟩ :: ls := by
  induction x with
  | nil => exact h
  | cons c x ih =>
    obtain ⟨hlf, hlfs⟩ := not_or.mp (mt List.mem_cons.mpr hx.1)
    obtain ⟨hcr, hcrs⟩ := not_or.mp (mt List.mem_cons.mpr hx.2)
    rw [List.cons_append, lines_cons_of_ne (Ne.symm hcr) (Ne.symm hlf), ih ⟨hlfs, hcrs⟩]
    rfl

theorem lines_last {x : List Char} (hx : Unbroken x) : lines x = [⟨x, []⟩] := by
  have h := lines_unbroken hx (show lines [] = [⟨[], []⟩] from rfl)
  simpa using h

theorem lines_line {x brk y : List Char} (hx : Unbroken x) (hbrk : IsBreak y brk) :
    lines (x ++ brk ++ y) = ⟨x, brk⟩ :: lines y := by
  have hbreak : lines (brk ++ y) = ⟨[], brk⟩ :: lines y := by
    cases hbrk with
    | lf | crlf => rfl
    | cr h =>
      rw [List.singleton_append, lines]
      · rfl
      · intro cs _ hy
        exact h (by rw [hy]; rfl)
  rw [List.append_assoc, lines_unbroken hx hbreak, List.append_nil]

theorem exists_break (cs : List Char) :
    Unbroken cs ∨ ∃ x brk y, Unbroken x ∧ IsBreak y brk ∧ cs = x ++ brk ++ y := by
  induction cs with
  | nil => exact .inl ⟨List.not_mem_nil, List.not_mem_nil⟩
  | cons c cs ih =>
    by_cases hlf : c = '\n'
    · exact .inr ⟨[], _, cs, ⟨List.not_mem_nil, List.not_mem_nil⟩, .lf, by rw [hlf]; rfl⟩
    by_cases hcr : c = '\r'
    · by_cases hnext : cs.head? = some '\n'
      · obtain ⟨ds, rfl⟩ : ∃ ds, cs = '\n' :: ds := by
          cases cs with
          | nil => cases hnext
          | cons d ds => exact ⟨ds, by rw [Option.some.inj hnext]⟩
        exact .inr ⟨[], _, ds, ⟨List.not_mem_nil, List.not_mem_nil⟩, .crlf, by rw [hcr]; rfl⟩
      · exact .inr ⟨[], _, cs, ⟨List.not_mem_nil, List.not_mem_nil⟩, .cr hnext, by rw [hcr]; rfl⟩
    have hcons {x : List Char} (hx : Unbroken x) : Unbroken (c :: x) := by
      simpa [Unbroken, Ne.symm hlf, Ne.symm hcr] using hx
    rcases ih with hcs | ⟨x, brk, y, hx, hbrk, rfl⟩
    · exact .inl (hcons hcs)
    · exact .inr ⟨c :: x, brk, y, hcons hx, hbrk, rfl⟩

/-- A text is a last line, or a line with its break and a text after it. -/
theorem breaks_induction {P : List Char → Prop} (last : ∀ x, Unbroken x → P x)
    (more : ∀ x brk y, Unbroken x → IsBreak y brk → P y → P (x ++ brk ++ y)) (cs : List Char) : P cs := by
  induction hn : cs.length using Nat.strong_induction_on generalizing cs with
  | _ n ih =>
    rcases exists_break cs with hcs | ⟨x, brk, y, hx, hbrk, rfl⟩
    · exact last cs hcs
    · refine more x brk y hx hbrk (ih y.length ?_ y rfl)
      have hpos : 0 < brk.length := by cases hbrk <;> simp
      simp only [List.length_append] at hn
      omega

/-- The lines of a text, one after the other, are the text. -/
theorem chars_lines (cs : List Char) : (lines cs).flatMap Line.chars = cs := by
  induction cs using breaks_induction with
  | last x hx => simp [lines_last hx, Line.chars]
  | more x brk y hx hbrk ih => rw [lines_line hx hbrk, List.flatMap_cons, ih, Line.chars]

theorem IsBreak.endsLine {y brk : List Char} (h : IsBreak y brk) {c : Char} (hc : c ∈ brk) : endsLine c = true := by
  cases h <;> simp_all

/-- A line has no break inside it. A break ends it, unless it is the last one. -/
theorem line_ends {cs : List Char} {above below : List Line} {l : Line} (h : lines cs = above ++ l :: below) :
    Unbroken l.body ∧ (∀ c ∈ l.brk, endsLine c = true) ∧ (l.brk = [] → below = []) := by
  induction cs using breaks_induction generalizing above with
  | last x hx =>
    rw [lines_last hx] at h
    obtain ⟨rfl, hl⟩ := List.append_eq_singleton_iff.mp h.symm |>.resolve_right (by simp)
    obtain ⟨rfl, rfl⟩ := List.cons.inj hl
    exact ⟨hx, by simp, fun _ => rfl⟩
  | more x brk y hx hbrk ih =>
    rw [lines_line hx hbrk] at h
    cases above with
    | nil =>
      obtain ⟨rfl, rfl⟩ := List.cons.inj h
      refine ⟨hx, fun c hc => hbrk.endsLine hc, fun hnil => ?_⟩
      cases hbrk <;> cases hnil
    | cons a above => exact ih (List.cons.inj h).2

/-! ## Places -/

/-- The offset `p` is in the line `l`, with `k` characters of the line before it. Behind the end of the text is where the
last line ends. -/
structure Place (cs : List Char) (p : Nat) (above : List Line) (l : Line) (below : List Line) (k : Nat) : Prop where
  lines : lines cs = above ++ l :: below
  offset : p = (above.flatMap Line.chars).length + k
  inside : k < l.chars.length ∨ below = []

/-- Every offset is in a line, which has the row and the column that are counted for it. -/
theorem exists_place (cs : List Char) (p : Nat) : ∃ above l below k, Place cs p above l below k ∧
    rowCol cs p = ((above.length : Int) + 1, (k : Int) + 1) ∧ lineOfRow cs ((above.length : Int) + 1) = l.chars := by
  induction cs using breaks_induction generalizing p with
  | last x hx =>
    refine ⟨[], ⟨x, []⟩, [], p, ⟨lines_last hx, by simp, .inr rfl⟩, rowCol_last hx p, ?_⟩
    · have hstarts := lineStarts_last hx
      simp [lineOfRow, hstarts, Line.chars]
  | more x brk y hx hbrk ih =>
    by_cases hp : p < (x ++ brk).length
    · exact ⟨[], ⟨x, brk⟩, lines y, p, ⟨lines_line hx hbrk, by simp, .inl hp⟩, rowCol_line hx hbrk hp,
        lineOfRow_line hx hbrk⟩
    · obtain ⟨q, rfl⟩ := Nat.exists_eq_add_of_le (Nat.le_of_not_lt hp)
      obtain ⟨above, l, below, k, ⟨hlines, hoffset, hinside⟩, hrowCol, hline⟩ := ih q
      refine ⟨⟨x, brk⟩ :: above, l, below, k, ⟨?_, ?_, hinside⟩, ?_, ?_⟩
      · rw [lines_line hx hbrk, hlines, List.cons_append]
      · simp only [List.flatMap_cons, List.length_append, Line.chars]
        omega
      · rw [rowCol_next hx hbrk, hrowCol]
        rfl
      · have hrow : 1 ≤ (above.length : Int) + 1 := by omega
        rw [← hline]
        exact lineOfRow_next hx hbrk hrow

variable {cs t : List Char} {p k : Nat} {above below : List Line} {l : Line}

/-- The line of an offset is none of those above it. -/
theorem Place.length_le (h : Place cs p above l below k) {above' below' : List Line} {l' : Line} {k' : Nat}
    (h' : Place cs p above' l' below' k') : above.length ≤ above'.length := by
  rcases List.append_eq_append_iff.mp (h.lines.symm.trans h'.lines) with
    ⟨between, rfl, -⟩ | ⟨between, rfl, hrest⟩
  · simp
  · cases between with
    | nil => simp
    | cons l₁ between =>
      obtain ⟨rfl, rfl⟩ := List.cons.inj hrest
      have hlast := h'.inside.resolve_right (by simp)
      have hoffset := h.offset.symm.trans h'.offset
      simp only [List.flatMap_append, List.flatMap_cons, List.length_append] at hoffset
      omega

/-- An offset is in one line, at one place. -/
theorem Place.unique (h : Place cs p above l below k) {above' below' : List Line} {l' : Line} {k' : Nat}
    (h' : Place cs p above' l' below' k') : above = above' ∧ l = l' ∧ below = below' ∧ k = k' := by
  have hlines := h.lines.symm.trans h'.lines
  obtain ⟨rfl, hrest⟩ := List.append_inj hlines (Nat.le_antisymm (h.length_le h') (h'.length_le h))
  obtain ⟨rfl, rfl⟩ := List.cons.inj hrest
  exact ⟨rfl, rfl, rfl, Nat.add_left_cancel (h.offset.symm.trans h'.offset)⟩

/-- What comes from an offset on is what is left of its line, and the lines below. -/
theorem Place.drop (h : Place cs p above l below k) :
    cs.drop p = (l.body ++ (l.brk ++ below.flatMap Line.chars)).drop k := by
  have hcs : cs = above.flatMap Line.chars ++ (l.body ++ (l.brk ++ below.flatMap Line.chars)) := by
    conv_lhs => rw [← chars_lines cs, h.lines]
    simp [Line.chars]
  rw [h.offset]
  conv_lhs => rw [hcs]
  rw [List.drop_length_add_append]

/-- The character at an offset inside the line. -/
theorem Place.glyph (h : Place cs p above l below k) (hk : k < l.body.length) : cs[p]? = l.body[k]? := by
  have hdrop := congrArg List.head? h.drop
  rwa [List.head?_drop, List.head?_drop, List.getElem?_append_left hk] at hdrop

theorem Unbroken.not_endsLine {x : List Char} (hx : Unbroken x) {c : Char} (hc : c ∈ x) : endsLine c = false := by
  have hlf : c ≠ '\n' := fun h => hx.1 (h ▸ hc)
  have hcr : c ≠ '\r' := fun h => hx.2 (h ▸ hc)
  simp [hlf, hcr]

/-- Characters that end no line do not reach into what ends one. -/
theorem prefix_of_unbroken {x y : List Char} (ht : Unbroken t) (hy : ∀ c ∈ y.head?, endsLine c = true)
    (h : t <+: x ++ y) : t <+: x := by
  obtain ⟨rest, hrest⟩ := h
  rcases List.append_eq_append_iff.mp hrest with ⟨x', rfl, -⟩ | ⟨t', rfl, rfl⟩
  · exact List.prefix_append t x'
  · cases t' with
    | nil => exact ⟨[], by simp⟩
    | cons c t' =>
      have hc := ht.not_endsLine (c := c) (by simp)
      rw [hy c (by simp)] at hc
      cases hc

/-- A term that stands at an offset stands in its line as a whole. -/
theorem Place.term_inside (h : Place cs p above l below k) (ht : Unbroken t) (hne : t ≠ [])
    (hp : t <+: cs.drop p) : ∃ before after, l.body = before ++ t ++ after ∧ before.length = k := by
  obtain ⟨-, hbreak, hlast⟩ := line_ends h.lines
  rw [h.drop] at hp
  -- a place behind the line's own characters is in its break, or behind the text
  have hk : k ≤ l.body.length := by
    by_contra hlt
    obtain ⟨c, hc⟩ : ∃ c, t.head? = some c := ⟨_, List.head?_eq_some_head hne⟩
    have hget : (l.brk ++ below.flatMap Line.chars)[k - l.body.length]? = some c := by
      obtain ⟨rest, hrest⟩ := hp
      rw [← List.getElem?_append_right (by omega), ← List.head?_drop, ← hrest, List.head?_append, hc]
      rfl
    have hmem : c ∈ l.brk := by
      rcases h.inside with hinside | rfl
      · rw [Line.chars, List.length_append] at hinside
        rw [List.getElem?_append_left (by omega)] at hget
        exact List.mem_of_getElem? hget
      · rw [List.flatMap_nil, List.append_nil] at hget
        exact List.mem_of_getElem? hget
    have hends := ht.not_endsLine (List.mem_of_head? hc)
    rw [hbreak c hmem] at hends
    cases hends
  rw [List.drop_append_of_le_length hk] at hp
  have hinside : t <+: l.body.drop k := by
    refine prefix_of_unbroken ht (fun d hd => ?_) hp
    cases hbrk : l.brk with
    | nil =>
      rw [hbrk, hlast hbrk] at hd
      cases hd
    | cons b bs =>
      rw [hbrk] at hd
      obtain rfl : b = d := Option.some.inj hd
      exact hbreak b (by rw [hbrk]; simp)
  obtain ⟨after, hafter⟩ := hinside
  exact ⟨l.body.take k, after, by rw [List.append_assoc, hafter, List.take_append_drop], List.length_take_of_le hk⟩

/-- What is shown of a line is the line without its break. -/
theorem Place.shown (h : Place cs p above l below k) : trimEnd endsLine l.chars = l.body := by
  obtain ⟨hbody, hbreak, -⟩ := line_ends h.lines
  have hkept : l.body.reverse.dropWhile endsLine = l.body.reverse := by
    rw [List.dropWhile_eq_self_iff]
    intro hlength
    have hmem : l.body.reverse[0] ∈ l.body := List.mem_reverse.mp (List.getElem_mem hlength)
    rw [hbody.not_endsLine hmem]
    exact Bool.false_ne_true
  rw [Line.chars, trimEnd_append hbreak, trimEnd, hkept, List.reverse_reverse]

end Text

/-! ## Terms -/

namespace Locate

theorem slice_natCast (cs : List Char) (i j : Nat) : Text.slice cs i j = (cs.take j).drop i := by
  rw [Text.slice, clampIndex_natCast, clampIndex_natCast, ← List.take_eq_take_min]
  by_cases hi : i ≤ cs.length
  · rw [Nat.min_eq_left hi]
  · have hlength : (cs.take j).length ≤ cs.length := List.length_take_le' ..
    rw [List.drop_eq_nil_of_le (by omega), List.drop_eq_nil_of_le (by omega)]

/-- A term that is found stands at the offset that is answered, unless it was expected at a negative one. -/
theorem prefix_of_findTerm {text term : List Char} {near : Option Int} (hnear : ∀ n ∈ near, 0 ≤ n) {p : Int}
    (h : findTerm text term near = some p) : term ≠ [] ∧ ∃ j : Nat, p = j ∧ term <+: text.drop j := by
  unfold findTerm at h
  split at h
  · cases h
  rename_i hword
  have hne : term ≠ [] := by
    rintro rfl
    exact hword rfl
  have hfirst {p : Int} (h : (firstWhole term none text 0).map Int.ofNat = some p) :
      ∃ j : Nat, p = j ∧ term <+: text.drop j := by
    obtain ⟨j, hj, rfl⟩ := Option.map_eq_some_iff.mp h
    exact ⟨j, rfl, ((firstWhole_eq_some_iff hne [] text j).mp hj).2.1.1⟩
  refine ⟨hne, ?_⟩
  cases near with
  | none => exact hfirst h
  | some n =>
    simp only at h
    split at h
    · rename_i hstands
      obtain rfl := Option.some.inj h
      obtain ⟨j, rfl⟩ := Int.eq_ofNat_of_zero_le (hnear n rfl)
      rw [sliceFrom_natCast, List.isPrefixOf_iff_prefix] at hstands
      exact ⟨j, rfl, hstands⟩
    · exact hfirst h

end Locate

/-! ## Reports -/

namespace Report

/-- What stands in front of a line that is shown. -/
def label (row col : Nat) : String := toString row ++ ":" ++ toString col ++ ": "

def blanks (n : Nat) : String := String.ofList (List.replicate n ' ')

theorem mark_natCast (highlight filler line : List Char) (i j : Nat) :
    mark highlight filler line i j = line.take i ++ highlight ++
      (if ((line.take j).drop i).isEmpty then filler else (line.take j).drop i) ++ plain ++ line.drop j := by
  have hfront := Locate.slice_natCast line 0 i
  rw [List.drop_zero] at hfront
  rw [mark, Locate.slice_natCast, Locate.sliceFrom_natCast]
  exact congrArg (· ++ highlight ++ _ ++ plain ++ line.drop j) hfront

/-- A term inside a line, with the codes around it. -/
theorem mark_term (before after : List Char) {t : List Char} (ht : t ≠ []) :
    mark semanticHighlight [] (before ++ t ++ after) before.length (before.length + t.length) =
      before ++ semanticHighlight ++ t ++ plain ++ after := by
  have hfront : (before ++ t ++ after).take before.length = before := by simp
  have hterm : ((before ++ t ++ after).take (before.length + t.length)).drop before.length = t := by
    rw [← List.length_append, List.take_left, List.drop_left]
  have hback : (before ++ t ++ after).drop (before.length + t.length) = after := by
    rw [← List.length_append, List.drop_left]
  have hmark := mark_natCast semanticHighlight [] (before ++ t ++ after) before.length (before.length + t.length)
  rw [hfront, hterm, hback, if_neg (by simpa using ht)] at hmark
  exact hmark

/-- One character of a line, or a blank behind its end. -/
theorem mark_glyph (body : List Char) (k : Nat) :
    mark syntaxHighlight [' '] body k (k + 1) =
      body.take k ++ syntaxHighlight ++ [body[k]?.getD ' '] ++ plain ++ body.drop (k + 1) := by
  have hmark := mark_natCast syntaxHighlight [' '] body k (k + 1)
  have hspot : (body.take (k + 1)).drop k = body[k]?.toList := by
    rw [List.drop_take, Nat.add_sub_cancel_left, List.take_one, List.head?_drop]
  rw [hspot] at hmark
  refine hmark.trans ?_
  cases body[k]? <;> rfl

/-- The text of a problem at a place. -/
theorem render_place {source : List Char} {p k : Nat} {above below : List Text.Line} {l : Text.Line}
    (h : Text.Place source p above l below k)
    (hrowCol : Text.rowCol source p = ((above.length : Int) + 1, (k : Int) + 1))
    (hline : Text.lineOfRow source ((above.length : Int) + 1) = l.chars) {d : Diagnostic}
    (hd : d.position = some (p : Int)) :
    render source d = String.intercalate "\n"
      ((if d.kind = .syntaxError then d.message else "Error: " ++ d.message) :: d.address ::
        (label (above.length + 1) (k + 1) ++ String.ofList (
          if d.kind = .syntaxError then mark syntaxHighlight [' '] l.body k (k + 1)
          else mark semanticHighlight [] l.body k (k + d.width))) ::
        d.extra.map (blanks ((label (above.length + 1) (k + 1)).length + k) ++ ·)) := by
  have hlabel : toString ((above.length : Int) + 1) ++ ":" ++ toString ((k : Int) + 1) ++ ": " =
      label (above.length + 1) (k + 1) := rfl
  have hshown : Text.trimEnd (fun c => c = '\r' || c = '\n') l.chars = l.body := h.shown
  have hpadding (n : Nat) : ((n : Int) + ((k : Int) + 1) - 1).toNat = n + k := by omega
  simp only [render, hd, hrowCol, hline, hshown, hlabel, hpadding, Int.add_sub_cancel]
  rfl

theorem printed_locatedError (r : Report) (kind : DiagnosticKind) (address : String) (c : Complaint) :
    (r.locatedError kind address c).printed = r.printed ++
      render (r.source address) ⟨address, kind, c.message,
        Locate.findTerm (r.source address) c.term.toList c.near, c.term.length, c.extra⟩ ++ "\n" := rfl

/-- Positions are true. Whenever a report finds a term without line breaks, it prints the line that holds the term, without
its break and with the codes around the term alone, behind a row and a column: the characters of the lines above, and the
column, come to the offset where the term was found. What else there is to say is indented to where the term begins. A
syntax error is printed in the same way at its own offset; the character there is highlighted, and a blank is if the
offset is at the end of its line or past it. -/
theorem positions_true (r : Report) (address : String) :
    (∀ (kind : DiagnosticKind) (c : Complaint) (p : Int), kind ≠ .syntaxError → Text.Unbroken c.term.toList →
      (∀ n ∈ c.near, 0 ≤ n) → Locate.findTerm (r.source address) c.term.toList c.near = some p →
      ∃ above before after brk below,
        Text.lines (r.source address) = above ++ ⟨before ++ c.term.toList ++ after, brk⟩ :: below ∧
        p = ((above.flatMap Text.Line.chars).length + before.length : Nat) ∧
        (r.locatedError kind address c).printed = r.printed ++ String.intercalate "\n"
          (("Error: " ++ c.message) :: address ::
            (label (above.length + 1) (before.length + 1) ++
              String.ofList (before ++ semanticHighlight ++ c.term.toList ++ plain ++ after)) ::
            c.extra.map (blanks ((label (above.length + 1) (before.length + 1)).length + before.length) ++ ·)) ++ "\n") ∧
    ∀ (rest : String) (shortest : Option String) (p : Nat),
      Locate.syntaxOffset (r.source address) rest.toList (shortest.map String.toList) = p →
      ∃ above l below k glyph, Text.Place (r.source address) p above l below k ∧
        (k < l.body.length → (r.source address)[p]? = some glyph) ∧ (l.body.length ≤ k → glyph = ' ') ∧
        (r.syntaxError address rest shortest).printed = r.printed ++ String.intercalate "\n"
          ["Syntax error.", address, label (above.length + 1) (k + 1) ++
            String.ofList (l.body.take k ++ syntaxHighlight ++ [glyph] ++ plain ++ l.body.drop (k + 1))] ++ "\n" := by
  constructor
  · intro kind c p hkind hterm hnear hfound
    obtain ⟨hne, j, rfl, hstands⟩ := Locate.prefix_of_findTerm hnear hfound
    obtain ⟨above, ⟨body, brk⟩, below, k, hplace, hrowCol, hline⟩ := Text.exists_place (r.source address) j
    obtain ⟨before, after, hbody, rfl⟩ := hplace.term_inside hterm hne hstands
    simp only at hbody
    subst hbody
    refine ⟨above, before, after, brk, below, hplace.lines, congrArg Nat.cast hplace.offset, ?_⟩
    have hmarked := mark_term before after hne
    rw [String.length_toList] at hmarked
    rw [printed_locatedError, hfound, render_place hplace hrowCol hline rfl, if_neg hkind, if_neg hkind, hmarked]
  · intro rest shortest p hp
    obtain ⟨above, l, below, k, hplace, hrowCol, hline⟩ := Text.exists_place (r.source address) p
    refine ⟨above, l, below, k, l.body[k]?.getD ' ', hplace, fun hk => ?_, fun hk => ?_, ?_⟩
    · rw [hplace.glyph hk, List.getElem?_eq_getElem hk]
      rfl
    · rw [List.getElem?_eq_none hk]
      rfl
    · rw [printed_syntaxError, hp, render_place hplace hrowCol hline rfl, mark_glyph]
      rfl

/-- A term in the second of three lines that CR LF, CR and LF end, looked for where it is not; and a syntax error between CR
and LF. -/
theorem positions_true_breaks :
    let r := (Report.empty false).attach [("m", "a\r\n\tb c\rd\n")]
    let c : Complaint := ⟨"No.", "c", ["Really."], some 1⟩
    Text.Unbroken c.term.toList ∧ Locate.findTerm (r.source "m") c.term.toList c.near = some 6 ∧
      (r.locatedError .located "m" c).printed =
        "Error: No.\nm\n2:4: \tb \x1b[43mc\x1b[0m\n        Really.\n" ∧
      Locate.syntaxOffset (r.source "m") "\n\tb c\rd\n".toList none = 2 ∧
      (r.syntaxError "m" "\n\tb c\rd\n" none).printed = "Syntax error.\nm\n1:3: a\x1b[41m \x1b[0m\n" := by
  intro r c
  have hterm : Text.Unbroken c.term.toList := by
    unfold Text.Unbroken
    decide
  have hfound : Locate.findTerm (r.source "m") c.term.toList c.near = some 6 := by decide +kernel
  have hoffset : Locate.syntaxOffset (r.source "m") "\n\tb c\rd\n".toList none = 2 := by decide +kernel
  let first : Text.Line := ⟨['a'], ['\r', '\n']⟩
  let second : Text.Line := ⟨['\t', 'b', ' ', 'c'], ['\r']⟩
  let rest : List Text.Line := [⟨['d'], ['\n']⟩, ⟨[], []⟩]
  have hlines : Text.lines (r.source "m") = first :: second :: rest := by decide +kernel
  obtain ⟨hlocated, hsyntax⟩ := positions_true r "m"
  refine ⟨hterm, hfound, ?_, hoffset, ?_⟩
  · obtain ⟨above, before, after, brk, below, htext, hp, hprinted⟩ :=
      hlocated .located c 6 (by decide) hterm (by simp [c]) hfound
    have hplace : Text.Place (r.source "m") 6 above ⟨before ++ c.term.toList ++ after, brk⟩ below before.length :=
      ⟨htext, Int.ofNat.inj hp, .inl (by simp [Text.Line.chars, c])⟩
    have hthere : Text.Place (r.source "m") 6 [first] second rest 3 := ⟨hlines, rfl, .inl (by decide)⟩
    obtain ⟨rfl, hline, -, hcol⟩ := hplace.unique hthere
    have hbody : before ++ c.term.toList ++ after = ['\t', 'b', ' '] ++ ['c'] := congrArg Text.Line.body hline
    rw [List.append_assoc, show c.term.toList = ['c'] by decide] at hbody
    obtain ⟨rfl, hrest⟩ := List.append_inj hbody hcol
    obtain rfl : after = [] := (List.cons.inj hrest).2
    rw [hprinted]
    decide +kernel
  · obtain ⟨above, l, below, k, glyph, hplace, hglyph, hpast, hprinted⟩ := hsyntax "\n\tb c\rd\n" none 2 hoffset
    have hthere : Text.Place (r.source "m") 2 [] first (second :: rest) 2 := ⟨hlines, rfl, .inl (by decide)⟩
    obtain ⟨rfl, rfl, -, rfl⟩ := hplace.unique hthere
    obtain rfl : glyph = ' ' := hpast (by decide)
    rw [hprinted]
    decide +kernel

end Report

end LazyModules
