import LazyModules.Proofs.Lines.Parsing
import LazyModules.Proofs.Text.Split

/-!
# Reports on lines

A syntax error is reported at the place where reading stopped, or on the last line that shows something if the text
leaves something open. With CR LF for LF, reports say the same and point to the same places, except behind the end of
that last line. There the CR counts as part of the line.

**Results.** `lastShown_crlf`: the last line that shows something. `syntaxOffset_crlf`: where an error is reported.
`lineBreaks_immaterial`: scanning, parsing and reporting. `crlf_moves_column`: a place where they part.
-/
namespace LazyModules

open Text (crlf crlfOffset rowCol trimEnd)

/-! ## Lines of a text -/

namespace Text

theorem split_line {x : List Char} (hx : '\n' ∉ x) (y : List Char) : split '\n' (x ++ '\n' :: y) = x :: split '\n' y := by
  rw [split_append, split_of_not_mem hx, List.singleton_append]

/-- The line `l` begins at offset `s`. -/
inductive LineAt : List Char → Nat → List Char → Prop
  | last {x : List Char} (hx : '\n' ∉ x) : LineAt x 0 x
  | first {x : List Char} (hx : '\n' ∉ x) (y : List Char) : LineAt (x ++ '\n' :: y) 0 x
  | later {x : List Char} (hx : '\n' ∉ x) {y l : List Char} {s : Nat} (h : LineAt y s l) :
    LineAt (x ++ '\n' :: y) (x.length + 1 + s) l

variable {cs l : List Char} {s : Nat}

/-- Inside a line, offsets correspond one after the other. -/
theorem LineAt.crlfOffset_add (h : LineAt cs s l) {k : Nat} (hk : k ≤ l.length) :
    crlfOffset cs (s + k) = crlfOffset cs s + k := by
  induction h with
  | @last x hx =>
    have hoffset := crlfOffset_of_le hx [] hk
    rw [List.append_nil] at hoffset
    rw [Nat.zero_add, hoffset, crlfOffset_zero, Nat.zero_add]
  | first hx y => rw [Nat.zero_add, crlfOffset_of_le hx _ hk, crlfOffset_zero, Nat.zero_add]
  | @later x hx y l s h ih => rw [Nat.add_assoc, crlfOffset_next hx, crlfOffset_next hx, ih hk, ← Nat.add_assoc]

/-- A line has one row. If a break follows, that goes for both characters of CR LF too. -/
theorem LineAt.rowCol_add (h : LineAt cs s l) (hcs : '\r' ∉ cs) : ∃ row : Int,
    (∀ k ≤ l.length, rowCol cs (s + k : Nat) = (row, (k : Int) + 1)) ∧
    (s + l.length < cs.length → rowCol (crlf cs) (crlfOffset cs s + (l.length + 1) : Nat) = (row, (l.length : Int) + 2)) := by
  induction h with
  | @last x hx =>
    refine ⟨1, fun k _ => ?_, fun hlt => ?_⟩
    · rw [Nat.zero_add, rowCol_last ⟨hx, hcs⟩]
    · omega
  | @first x hx y =>
    obtain ⟨hcrx, -⟩ : '\r' ∉ x ∧ '\r' ∉ y := by simpa using hcs
    have hlf (p : Nat) := rowCol_line ⟨hx, hcrx⟩ (.lf (y := y)) (p := p)
    have hcrlf (p : Nat) := rowCol_line ⟨hx, hcrx⟩ (.crlf (y := crlf y)) (p := p)
    simp only [List.append_assoc, List.cons_append, List.nil_append, List.length_append, List.length_cons,
      List.length_nil] at hlf hcrlf
    refine ⟨1, fun k hk => ?_, fun _ => ?_⟩
    · rw [Nat.zero_add, hlf k (by omega)]
    · rw [crlf_line hx, crlfOffset_zero, Nat.zero_add, hcrlf _ (by omega)]
      simp [Int.add_assoc]
  | @later x hx y l s h ih =>
    obtain ⟨hcrx, hcry⟩ : '\r' ∉ x ∧ '\r' ∉ y := by simpa using hcs
    obtain ⟨row, hrow, hbreak⟩ := ih hcry
    have hlf (p : Nat) := rowCol_next ⟨hx, hcrx⟩ (.lf (y := y)) p
    have hcrlf (p : Nat) := rowCol_next ⟨hx, hcrx⟩ (.crlf (y := crlf y)) p
    simp only [List.append_assoc, List.cons_append, List.nil_append, List.length_append, List.length_cons,
      List.length_nil] at hlf hcrlf
    refine ⟨row + 1, fun k hk => ?_, fun hlt => ?_⟩
    · rw [Nat.add_assoc, hlf, hrow k hk]
    · rw [crlf_line hx, crlfOffset_next hx, Nat.add_assoc, hcrlf, hbreak]
      simp only [List.length_append, List.length_cons] at hlt
      omega

end Text

namespace Locate

/-! ## The last line that shows something -/

theorem lastShown_add (ls : List (List Char)) (k s : Nat) :
    lastShown ls (k + s) = (lastShown ls s).map fun found => (k + found.1, found.2) := by
  induction ls generalizing s with
  | nil => rfl
  | cons l ls ih =>
    simp only [lastShown, Nat.add_assoc k, ih]
    cases lastShown ls (s + l.length + 1) with
    | some found => rfl
    | none => cases Text.isBlankRun l <;> rfl

theorem lastShown_cons (l : List Char) (ls : List (List Char)) :
    lastShown (l :: ls) 0 = ((lastShown ls 0).map fun found => (l.length + 1 + found.1, found.2)).or
      (if Text.isBlankRun l then none else some (0, l)) := by
  have h := lastShown_add ls (l.length + 1) 0
  rw [Nat.add_zero] at h
  rw [lastShown, Nat.zero_add, h]
  cases lastShown ls 0 <;> rfl

theorem lineAt_of_lastShown {cs l : List Char} {s : Nat} (h : lastShown (Text.split '\n' cs) 0 = some (s, l)) :
    Text.LineAt cs s l := by
  induction cs using Text.lines_induction generalizing s with
  | last x hx =>
    rw [Text.split_of_not_mem hx, lastShown_cons] at h
    obtain ⟨-, hfound⟩ := Option.ite_none_left_eq_some.mp h
    obtain ⟨rfl, rfl⟩ := Prod.mk.inj (Option.some.inj hfound)
    exact .last hx
  | more x y hx ih =>
    rw [Text.split_line hx, lastShown_cons] at h
    cases hlater : lastShown (Text.split '\n' y) 0 with
    | some found =>
      rw [hlater] at h
      cases h
      exact .later hx (ih hlater)
    | none =>
      rw [hlater] at h
      obtain ⟨-, hfound⟩ := Option.ite_none_left_eq_some.mp h
      obtain ⟨rfl, rfl⟩ := Prod.mk.inj (Option.some.inj hfound)
      exact .first hx y

/-- What CR LF for LF adds to the line `l` that begins at `s`. -/
def breakLeft (cs : List Char) (s : Nat) (l : List Char) : List Char := if s + l.length < cs.length then ['\r'] else []

theorem isBlankRun_cr (l : List Char) : Text.isBlankRun (l ++ ['\r']) = Text.isBlankRun l := by
  have hcr : Text.isBlank '\r' = true := by decide
  simp [Text.isBlankRun, hcr]

/-- The last line that shows something is the same, but for the CR that ends it. -/
theorem lastShown_crlf (cs : List Char) : lastShown (Text.split '\n' (crlf cs)) 0 =
    (lastShown (Text.split '\n' cs) 0).map fun found => (crlfOffset cs found.1, found.2 ++ breakLeft cs found.1 found.2) := by
  induction cs using Text.lines_induction with
  | last x hx =>
    have hlast : x ++ breakLeft x 0 x = x := by simp [breakLeft]
    rw [Text.crlf_of_not_mem hx, Text.split_of_not_mem hx, lastShown_cons]
    cases Text.isBlankRun x with
    | true => rfl
    | false => exact congrArg (fun l => some (0, l)) hlast.symm
  | more x y hx ih =>
    have hcr : '\n' ∉ x ++ ['\r'] := by simpa using hx
    have hcrlf : crlf (x ++ '\n' :: y) = (x ++ ['\r']) ++ '\n' :: crlf y := by rw [Text.crlf_line hx, List.append_assoc]; rfl
    rw [hcrlf, Text.split_line hcr, Text.split_line hx, lastShown_cons, lastShown_cons, ih, isBlankRun_cr]
    cases lastShown (Text.split '\n' y) 0 with
    | some found =>
      obtain ⟨s, l⟩ := found
      have hbreak : breakLeft (x ++ '\n' :: y) (x.length + 1 + s) l = breakLeft y s l := by
        simp only [breakLeft, List.length_append, List.length_cons]
        congr 1
        simp only [eq_iff_iff]
        omega
      simp [Text.crlfOffset_next hx, hbreak]
    | none =>
      have hbreak : breakLeft (x ++ '\n' :: y) 0 x = ['\r'] := by simp [breakLeft]
      cases Text.isBlankRun x <;> simp [hbreak]

/-! ## Where an error is reported -/

theorem unclosed_crlf (cs : List Char) : unclosed (crlf cs) = unclosed cs := by
  have hcount (p : Char → Bool) (hcr : p '\r' = false) : (crlf cs).countP p = cs.countP p := by
    induction cs with
    | nil => rfl
    | cons c cs ih =>
      by_cases hc : c = '\n'
      · subst hc
        simp [crlf, List.countP_cons, hcr, ih]
      · simp [crlf, hc, List.countP_cons, ih]
  rw [unclosed, unclosed, hcount isCloser (by decide), hcount isOpener (by decide)]

theorem unterminated_crlf (cs : List Char) : unterminated (crlf cs) = unterminated cs := by
  have hcount (before : Option Char) : countQuotes before (crlf cs) = countQuotes before cs := by
    induction cs generalizing before with
    | nil => rfl
    | cons c cs ih =>
      by_cases hc : c = '\n'
      · subst hc
        simp [crlf, countQuotes, ih]
      · simp [crlf, hc, countQuotes, ih]
  rw [unterminated, unterminated, hcount]

theorem strayFrom_cr (q : Quoting) (pending l : List Char) (i : Nat) :
    strayFrom q pending (l ++ ['\r']) i = strayFrom q pending l i := by
  induction l generalizing q pending i with
  | nil => cases q <;> rfl
  | cons c l ih =>
    cases q with
    | escaped => exact ih ..
    | inside => exact ih ..
    | outside =>
      simp only [List.cons_append, strayFrom, ih]

theorem strayFrom_lt {q : Quoting} {pending l : List Char} {i j : Nat} (h : strayFrom q pending l i = some j) :
    j < i + l.length := by
  fun_induction strayFrom q pending l i <;> grind

/-- The place that is blamed lies in its line. -/
theorem blamedPlace_le (l : List Char) (u : Bool) : blamedPlace l u ≤ l.length := by
  have htrim := Text.length_trimEnd_le (fun c => c = ' ' || c = '\t') l
  unfold blamedPlace
  split
  · rename_i i hi
    have hlt := strayFrom_lt hi
    split <;> omega
  · exact htrim

/-- A line that is blamed at its end: it has no stray closing bracket, or a string without its end matters more. -/
def AtLineEnd (l : List Char) (u : Bool) : Prop := strayCloser l = none ∨ u = true

theorem blamedPlace_cr (l : List Char) (u : Bool) :
    AtLineEnd l u ∧ blamedPlace l u = (trimEnd (fun c => c = ' ' || c = '\t') l).length ∧
        blamedPlace (l ++ ['\r']) u = l.length + 1 ∨
      ¬ AtLineEnd l u ∧ blamedPlace (l ++ ['\r']) u = blamedPlace l u := by
  have htrim : (trimEnd (fun c => c = ' ' || c = '\t') (l ++ ['\r'])).length = l.length + 1 := by simp [trimEnd]
  have hstray : strayCloser (l ++ ['\r']) = strayCloser l := strayFrom_cr ..
  simp only [AtLineEnd, blamedPlace, hstray, htrim]
  cases strayCloser l with
  | none => exact .inl ⟨.inl rfl, rfl, rfl⟩
  | some i =>
    cases u with
    | true => exact .inl ⟨.inr rfl, rfl, rfl⟩
    | false => exact .inr ⟨by simp, rfl⟩

/-- What counts as unread: the shortest that was left, unless nothing was. -/
def unread (rest : List Char) (shortest : Option (List Char)) : List Char :=
  match shortest with
  | none | some [] => rest
  | some s => s

theorem syntaxOffset_eq (text rest : List Char) (shortest : Option (List Char)) : syntaxOffset text rest shortest =
    if unclosed rest || unterminated rest then
      match lastShown (Text.split '\n' text) 0 with
      | none => (text.length : Int) - (unread rest shortest).length
      | some (start, line) => (start : Int) + blamedPlace line (unterminated rest)
    else (text.length : Int) - (unread rest shortest).length := rfl

/-- The text leaves something open, and is blamed for it at the end of the line `l`, after which a break comes. -/
structure BlamesBreak (cs rest : List Char) (s : Nat) (l : List Char) : Prop where
  opened : (unclosed rest || unterminated rest) = true
  shown : lastShown (Text.split '\n' cs) 0 = some (s, l)
  broken : s + l.length < cs.length
  atLineEnd : AtLineEnd l (unterminated rest)

variable {cs : List Char} {r r' : Reading}

theorem unread_crlf (h : Reading.Corresponds cs r r') : ∃ k ≤ cs.length,
    unread r.rest.toList (r.shortest.map String.toList) = cs.drop k ∧
      unread r'.rest.toList (r'.shortest.map String.toList) = (crlf cs).drop (crlfOffset cs k) := by
  obtain ⟨i, hi, hrest, hrest'⟩ := h.rest
  rcases h.shortest with ⟨hnone, hnone'⟩ | ⟨j, hj, hsome, hsome'⟩
  · refine ⟨i, hi, ?_⟩
    rw [hnone, hnone', hrest, hrest']
    simp [unread]
  · rw [hsome, hsome', hrest, hrest', Text.drop_crlf cs hj]
    simp only [Option.map_some, String.toList_ofList]
    cases hdrop : cs.drop j with
    | nil => exact ⟨i, hi, rfl, rfl⟩
    | cons c ds =>
      refine ⟨j, hj, ?_, ?_⟩
      · rw [hdrop]
        rfl
      · rw [Text.drop_crlf cs hj, hdrop, Text.crlf]
        split <;> rfl

/-- An error is reported at corresponding places, unless it is at the break that ends a line. -/
theorem syntaxOffset_crlf (h : Reading.Corresponds cs r r') :
    let p := syntaxOffset cs r.rest.toList (r.shortest.map String.toList)
    let p' := syntaxOffset (crlf cs) r'.rest.toList (r'.shortest.map String.toList)
    (∃ s l, BlamesBreak cs r.rest.toList s l ∧ Text.LineAt cs s l ∧
        p = (s + (trimEnd (fun c => c = ' ' || c = '\t') l).length : Nat) ∧ p' = (crlfOffset cs s + (l.length + 1) : Nat)) ∨
      (¬ ∃ s l, BlamesBreak cs r.rest.toList s l) ∧ ∃ k : Nat, p = k ∧ p' = crlfOffset cs k := by
  intro p p'
  obtain ⟨k, hk, hunread, hunread'⟩ := unread_crlf h
  have hposition : (cs.length : Int) - (unread r.rest.toList (r.shortest.map String.toList)).length = k := by
    rw [hunread, List.length_drop]
    omega
  have hposition' : ((crlf cs).length : Int) - (unread r'.rest.toList (r'.shortest.map String.toList)).length =
      crlfOffset cs k := by
    have hle := (Text.crlfOffset_strictMono cs).monotone hk
    rw [Text.crlfOffset_length] at hle
    rw [hunread', List.length_drop]
    omega
  obtain ⟨i, hi, hrest, hrest'⟩ := h.rest
  have hrests : r'.rest.toList = crlf r.rest.toList := by
    rw [hrest, hrest', String.toList_ofList, String.toList_ofList, Text.drop_crlf cs hi]
  have hp : p = _ := syntaxOffset_eq ..
  have hp' : p' = _ := syntaxOffset_eq ..
  rw [hposition] at hp
  rw [hposition', hrests, unclosed_crlf, unterminated_crlf, lastShown_crlf] at hp'
  by_cases hopened : (unclosed r.rest.toList || unterminated r.rest.toList) = true
  · rw [if_pos hopened] at hp hp'
    cases hshown : lastShown (Text.split '\n' cs) 0 with
    | none =>
      rw [hshown] at hp hp'
      refine .inr ⟨?_, k, hp, hp'⟩
      rintro ⟨s, l, hblames⟩
      cases hshown.symm.trans hblames.shown
    | some found =>
      obtain ⟨s, l⟩ := found
      have hline := lineAt_of_lastShown hshown
      have hinside := hline.crlfOffset_add (blamedPlace_le l (unterminated r.rest.toList))
      rw [hshown] at hp hp'
      simp only [Option.map_some] at hp hp'
      by_cases hbroken : s + l.length < cs.length
      · rw [breakLeft, if_pos hbroken] at hp'
        rcases blamedPlace_cr l (unterminated r.rest.toList) with ⟨hend, hplace, hplace'⟩ | ⟨hend, hplace⟩
        · rw [hplace] at hp
          rw [hplace'] at hp'
          exact .inl ⟨s, l, ⟨hopened, hshown, hbroken, hend⟩, hline, hp, hp'⟩
        · rw [hplace] at hp'
          refine .inr ⟨?_, s + blamedPlace l (unterminated r.rest.toList), hp, ?_⟩
          · rintro ⟨s', l', hblames⟩
            cases hshown.symm.trans hblames.shown
            exact hend hblames.atLineEnd
          · rw [hinside]
            exact hp'
      · rw [breakLeft, if_neg hbroken, List.append_nil] at hp'
        refine .inr ⟨?_, s + blamedPlace l (unterminated r.rest.toList), hp, ?_⟩
        · rintro ⟨s', l', hblames⟩
          cases hshown.symm.trans hblames.shown
          exact hbroken hblames.broken
        · rw [hinside]
          exact hp'
  · rw [if_neg hopened] at hp hp'
    exact .inr ⟨fun ⟨s, l, hblames⟩ => hopened hblames.opened, k, hp, hp'⟩

end Locate

namespace Report

theorem printed_syntaxError (report : Report) (address rest : String) (shortest : Option String) :
    (report.syntaxError address rest shortest).printed = report.printed ++
      render (report.source address) ⟨address, .syntaxError, "Syntax error.",
        some (Locate.syntaxOffset (report.source address) rest.toList (shortest.map String.toList)), 1, []⟩ ++ "\n" := rfl

/-- A problem at corresponding places is told by the same text. -/
theorem render_crlf {cs : List Char} (hcs : '\r' ∉ cs) (d : Diagnostic) (k : Nat) :
    render (crlf cs) { d with position := some (crlfOffset cs k : Nat) } = render cs { d with position := some (k : Nat) } := by
  have hline := Text.shownLine_crlf hcs (Text.one_le_row cs k)
  simp only [render, Text.rowCol_crlf hcs, hline]

/-- CR LF for LF makes no difference. The two texts scan to the same tokens at corresponding places. They read as the
same tree, or are refused at corresponding places. A report on their syntax errors prints the same, unless it points
to the end of the last line that shows something and a break comes after that. Then the row is the same, but the
CR is taken for a part of the line, and the column is the one after it. -/
theorem lineBreaks_immaterial (text : String) (hcr : '\r' ∉ text.toList) :
    let text' := String.ofList (crlf text.toList)
    let r := Reading.ofText text
    let r' := Reading.ofText text'
    let p := Locate.syntaxOffset text.toList r.rest.toList (r.shortest.map String.toList)
    let p' := Locate.syntaxOffset text'.toList r'.rest.toList (r'.shortest.map String.toList)
    Scan.scan text'.toList = (Scan.scan text.toList).relocate (crlfOffset text.toList) ∧
    Reading.Corresponds text.toList r r' ∧
    ((¬ ∃ s l, Locate.BlamesBreak text.toList r.rest.toList s l) →
      rowCol text'.toList p' = rowCol text.toList p ∧
      ∀ (report report' : Report) (address : String), report.source address = text.toList →
        report'.source address = text'.toList →
        ∃ told, (report.syntaxError address r.rest r.shortest).printed = report.printed ++ told ∧
          (report'.syntaxError address r'.rest r'.shortest).printed = report'.printed ++ told) ∧
    ∀ s l, Locate.BlamesBreak text.toList r.rest.toList s l →
      ∃ row : Int, rowCol text.toList p = (row, ((trimEnd (fun c => c = ' ' || c = '\t') l).length : Int) + 1) ∧
        rowCol text'.toList p' = (row, (l.length : Int) + 2) := by
  intro text' r r' p p'
  have htext' : text'.toList = crlf text.toList := String.toList_ofList
  have hp'_eq : p' = Locate.syntaxOffset (crlf text.toList) r'.rest.toList (r'.shortest.map String.toList) := by
    simp only [p', htext']
  have hreading : Reading.Corresponds text.toList r r' := Reading.ofText_crlf text
  have hoffset := Locate.syntaxOffset_crlf hreading
  simp only [← hp'_eq] at hoffset
  refine ⟨?_, hreading, fun hnone => ?_, fun s l hblames => ?_⟩
  · rw [htext', Scan.scan_crlf]
  · rcases hoffset with ⟨s, l, hblames, -⟩ | ⟨-, k, hp, hp'⟩
    · exact (hnone ⟨s, l, hblames⟩).elim
    refine ⟨?_, fun report report' address hsource hsource' => ?_⟩
    · rw [htext', hp', Text.rowCol_crlf hcr]
      exact congrArg _ hp.symm
    · let d : Diagnostic := ⟨address, .syntaxError, "Syntax error.", none, 1, []⟩
      refine ⟨render text.toList { d with position := some p } ++ "\n", ?_, ?_⟩
      · rw [printed_syntaxError, hsource, String.append_assoc]
      · rw [printed_syntaxError, hsource', String.append_assoc]
        change _ ++ (render _ { d with position := some p' } ++ _) = _
        rw [htext', hp', render_crlf hcr d k]
        exact congrArg (fun q => _ ++ (render _ { d with position := some q } ++ _)) hp.symm
  · rcases hoffset with ⟨s', l', hblames', hline, hp, hp'⟩ | ⟨hnone, -⟩
    · cases hblames.shown.symm.trans hblames'.shown
      obtain ⟨row, hrow, hbreak⟩ := hline.rowCol_add hcr
      refine ⟨row, ?_, ?_⟩
      · rw [← hrow _ (Text.length_trimEnd_le _ l)]
        exact congrArg _ hp
      · rw [htext', hp', hbreak hblames.broken]
    · exact (hnone ⟨s, l, hblames⟩).elim

/-- A closing bracket that closes nothing, on the second line. -/
theorem lineBreaks_immaterial_stray :
    let text := "a = 1\n(b])\n"
    let r := Reading.ofText text
    let r' := Reading.ofText (String.ofList (crlf text.toList))
    let report := (Report.empty false).attach [("m", text)]
    let report' := (Report.empty false).attach [("m", String.ofList (crlf text.toList))]
    '\r' ∉ text.toList ∧ (¬ ∃ s l, Locate.BlamesBreak text.toList r.rest.toList s l) ∧
      report.source "m" = text.toList ∧ report'.source "m" = crlf text.toList ∧
      ∃ told, (report.syntaxError "m" r.rest r.shortest).printed = "" ++ told ∧
        (report'.syntaxError "m" r'.rest r'.shortest).printed = "" ++ told := by
  intro text r r' report report'
  have hcr : '\r' ∉ text.toList := by decide
  have hnone : ¬ ∃ s l, Locate.BlamesBreak text.toList r.rest.toList s l := by
    rintro ⟨s, l, hblames⟩
    have hopened := hblames.opened
    revert hopened
    decide +kernel
  have hsource' : report'.source "m" = crlf text.toList := by decide +kernel
  exact ⟨hcr, hnone, rfl, hsource', ((lineBreaks_immaterial text hcr).2.2.1 hnone).2 report report' "m" rfl rfl⟩

/-- A bracket that is never closed. The report points one column further if the line ends with CR LF. -/
theorem crlf_moves_column :
    let place (text : String) := rowCol text.toList (Locate.syntaxOffset text.toList
      (Reading.ofText text).rest.toList ((Reading.ofText text).shortest.map String.toList))
    '\r' ∉ "x = (1 + 2\n".toList ∧ place "x = (1 + 2\n" = (1, 11) ∧
      place (String.ofList (crlf "x = (1 + 2\n".toList)) = (1, 12) := by
  decide +kernel

end Report

end LazyModules
