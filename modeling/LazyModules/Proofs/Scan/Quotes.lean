import LazyModules.Eval.Display
import LazyModules.Proofs.Data.Spelled

/-!
# Texts in quotes

Display shows a text inside a container as a string literal. Reading knows an escape for CR, and writing has none: it
leaves a CR as it is, and no literal holds one.

**Results.** `quote_scans_iff`: what display shows for a text scans as the one literal of that text if and only if there
is no CR in the text; otherwise the scan is blocked at the opening quote.
-/
namespace LazyModules.Scan

/-- A carriage return is written as it is, so that no literal ends after it. -/
theorem tailLength_write_of_mem {cs : List Char} (hcs : '\r' ∈ cs) (rest : List Char) :
    Literal.tailLength (cs.flatMap Literal.writeChar ++ rest) = none := by
  induction cs with
  | nil => cases hcs
  | cons c cs ih =>
    rw [List.flatMap_cons, List.append_assoc]
    by_cases hc : c = '\r'
    · subst hc
      rfl
    · have htail := ih ((List.mem_cons.mp hcs).resolve_left (Ne.symm hc))
      rcases writeChar_cases c with ⟨x, hwrite, -, hline⟩ | ⟨hwrite, hslash, hquote, hfeed⟩
      · simp [hwrite, tailLength_escape hline, htail]
      · rw [hwrite, List.singleton_append, tailLength_cons hquote hslash hfeed hc, htail]
        rfl

theorem piece?_quote (cs : List Char) : piece? '"' cs = (Literal.tailLength cs).map fun n => (.string, n + 1) := by
  have hspace : isSpace '"' = false := by decide
  have hdigit : Numeral.isDigit '"' = false := by decide
  simp [piece?, hspace, hdigit]

/-- Without carriage returns, a text in quotes is one piece. -/
theorem takes_write {s : String} (hs : '\r' ∉ s.toList) :
    Takes (Literal.write s.toList) .start .string (Literal.write s.toList) (some (.string s)) := by
  have htail := tailLength_write hs []
  refine ⟨⟨'"', s.toList.flatMap Literal.writeChar ++ ['"'], [], rfl, ?_, ?_⟩, ?_⟩
  · rw [List.append_nil]
    rfl
  · rw [List.append_nil, piece?_quote, htail]
    simp [Literal.write]
  · simp [lexeme?, Literal.write, unescape_write]

/-- A text in quotes scans as exactly one token, which spans it and says the text, if and only if the text holds no
carriage return. With one, the scan says nothing and is blocked at the opening quote. -/
theorem quote_scans_iff (s : String) :
    let text := (Eval.quote s).toList
    (scan text = ⟨[⟨.string s, 0⟩], .ended⟩ ∧ Token.stop text ⟨.string s, 0⟩ = text.length ↔ '\r' ∉ s.toList) ∧
      (scan text = ⟨[], .blocked 0⟩ ↔ '\r' ∈ s.toList) := by
  intro text
  have htext : text = Literal.write s.toList := String.toList_ofList
  rw [htext]
  by_cases hs : '\r' ∈ s.toList
  · have hblocked : scan (Literal.write s.toList) = ⟨[], .blocked 0⟩ := by
      rw [scan, Literal.write, List.cons_append, scanFrom, piece?_quote, tailLength_write_of_mem hs]
      rfl
    simp [hblocked, hs]
  · have htakes := takes_write hs
    have hend : (Layout.start.advance (some (.string s)) (Literal.write s.toList)).offset = (Literal.write s.toList).length := by
      simp [Layout.start, Layout.advance]
    have hscan : scan (Literal.write s.toList) = ⟨[⟨.string s, 0⟩], .ended⟩ := by
      rw [(Passes.start.step htakes).scan_eq, hend, List.drop_length]
      rfl
    have hstop : Token.stop (Literal.write s.toList) ⟨.string s, 0⟩ = (Literal.write s.toList).length :=
      htakes.stop_eq.trans hend
    simp [hscan, hstop, hs]

/-- What display shows for a carriage return is not a literal. -/
theorem quote_blocks_scan : scan (Eval.quote "\r").toList = ⟨[], .blocked 0⟩ := rfl

end LazyModules.Scan
