import LazyModules.Proofs.Scan.Found

/-!
# The places that a scan comes to

A scan takes one piece after the other. `Takes` is one step of it: at a place, a piece of certain characters, and
what the piece says. `Passes` are the places that a scan comes to, each with the tokens said before it.

**Results.** `takes_or_halts`: at any place, a scan takes a piece or says nothing more. `Passes.scan_eq`: the scan of a
text is what was said up to a place and the scan from there on. `passes_of_tokens`: every token is said at a place that
the scan comes to. `Passes.halts`: a scan comes to a place where it halts. `scan_increasing`: the offsets of tokens increase.
What is true of all these places is proved by induction on `Passes`, one piece at a time.
-/
namespace LazyModules.Scan

/-! ## One piece after the other -/

/-- A result with tokens in front of it. -/
def Result.after (ts : List Token) (r : Result) : Result := { r with tokens := ts ++ r.tokens }

@[simp] theorem Result.after_nil (r : Result) : r.after [] = r := rfl

@[simp] theorem Result.after_after (ts us : List Token) (r : Result) : (r.after us).after ts = r.after (ts ++ us) := by
  simp [Result.after]

theorem scanFrom_skip (cs rest : List Char) (l : Layout) :
    scanFrom (cs ++ rest) cs.length l = scanFrom rest 0 l := by
  induction cs with
  | nil => rfl
  | cons c cs ih => exact ih

/-- The token that a piece gives rise to, if it says something. -/
def Layout.said (l : Layout) (said : Option Lexeme) : List Token := (said.map fun x => ⟨x, l.offset⟩).toList

/-- A piece, and what comes after it. -/
theorem scanFrom_piece {l : Layout} {c : Char} {cs rest : List Char} {p : Piece} {x : Option Lexeme}
    (hpiece : piece? c (cs ++ rest) = some (p, cs.length + 1)) (hx : lexeme? l p (c :: cs) = .ok x) :
    scanFrom (c :: cs ++ rest) 0 l = (scanFrom rest 0 (l.advance x (c :: cs))).after (l.said x) := by
  have htake : (c :: (cs ++ rest)).take (cs.length + 1) = c :: cs := by simp
  rw [List.cons_append, scanFrom, hpiece]
  simp only [htake, hx, Nat.add_sub_cancel, scanFrom_skip]
  cases x <;> rfl

/-! ## One step -/

/-- At the place `l` of a text, the scan takes a piece with the characters `w`, which says `said`. -/
structure Takes (text : List Char) (l : Layout) (p : Piece) (w : List Char) (said : Option Lexeme) : Prop where
  cut : ∃ c cs rest, w = c :: cs ∧ text.drop l.offset = c :: (cs ++ rest) ∧ piece? c (cs ++ rest) = some (p, w.length)
  meaning : lexeme? l p w = .ok said

variable {text : List Char} {l : Layout} {p : Piece} {w : List Char} {said : Option Lexeme} {ts : List Token}

theorem Takes.of_piece? {c : Char} {cs : List Char} {n : Nat} (hrest : text.drop l.offset = c :: cs)
    (hpiece : piece? c cs = some (p, n)) (hsaid : lexeme? l p ((c :: cs).take n) = .ok said) :
    Takes text l p ((c :: cs).take n) said := by
  have hpos := piece?_pos hpiece
  have hlength : ((c :: cs).take n).length = n := by
    rw [List.length_take, List.length_cons, Nat.min_eq_left (piece?_le hpiece)]
  obtain ⟨n, rfl⟩ := Nat.exists_eq_add_one_of_ne_zero (Nat.ne_of_gt hpos)
  refine ⟨⟨c, cs.take n, cs.drop n, rfl, ?_, ?_⟩, hsaid⟩
  · rw [List.take_append_drop, hrest]
  · rw [List.take_append_drop, hlength, hpiece]

/-- The text goes on with the piece, and after it from the next place. -/
theorem Takes.drop_eq (h : Takes text l p w said) :
    text.drop l.offset = w ++ text.drop (l.advance said w).offset := by
  obtain ⟨c, cs, rest, rfl, hrest, -⟩ := h.cut
  show text.drop l.offset = c :: cs ++ text.drop (l.offset + (c :: cs).length)
  rw [← List.drop_drop, hrest, ← List.cons_append, List.drop_left]

theorem Takes.ne_nil (h : Takes text l p w said) : w ≠ [] := by
  obtain ⟨c, cs, rest, rfl, -⟩ := h.cut
  exact List.cons_ne_nil c cs

/-- Less of the text is left after a piece. -/
theorem Takes.length_drop_lt (h : Takes text l p w said) :
    (text.drop (l.advance said w).offset).length < (text.drop l.offset).length := by
  have hpos := List.length_pos_iff.mpr h.ne_nil
  rw [h.drop_eq, List.length_append]
  omega

theorem Takes.offset_lt (h : Takes text l p w said) : l.offset < (l.advance said w).offset :=
  Nat.lt_add_of_pos_right (List.length_pos_iff.mpr h.ne_nil)

theorem Takes.offset_le (h : Takes text l p w said) : (l.advance said w).offset ≤ text.length := by
  obtain ⟨c, cs, rest, rfl, hrest, -⟩ := h.cut
  have hlength := congrArg List.length hrest
  simp only [List.length_drop, List.length_cons, List.length_append] at hlength
  simp only [Layout.advance, List.length_cons]
  omega

/-- What was read up to the next place. -/
theorem Takes.take_eq (h : Takes text l p w said) :
    text.take (l.advance said w).offset = text.take l.offset ++ w := by
  show text.take (l.offset + w.length) = text.take l.offset ++ w
  rw [List.take_add, h.drop_eq, List.take_left]

/-- The piece is cut from what is there, and what is left of that is there at the next place. -/
theorem Takes.cut_next (h : Takes text l p w said) : ∃ c cs, w = c :: cs ∧
    text.drop l.offset = c :: (cs ++ text.drop (l.advance said w).offset) ∧
    piece? c (cs ++ text.drop (l.advance said w).offset) = some (p, w.length) := by
  have hdrop := h.drop_eq
  obtain ⟨c, cs, rest, rfl, hrest, hpiece⟩ := h.cut
  obtain rfl : rest = text.drop (l.advance said (c :: cs)).offset := by
    rw [hrest, ← List.cons_append] at hdrop
    exact List.append_cancel_left hdrop
  exact ⟨c, cs, rfl, hrest, hpiece⟩

theorem Takes.scanFrom_eq (h : Takes text l p w said) :
    scanFrom (text.drop l.offset) 0 l =
      (scanFrom (text.drop (l.advance said w).offset) 0 (l.advance said w)).after (l.said said) := by
  obtain ⟨c, cs, rfl, hrest, hpiece⟩ := h.cut_next
  rw [hrest]
  exact scanFrom_piece hpiece h.meaning

/-- Where a token ends: after the piece that stands where it starts. -/
def Token.stop (text : List Char) (t : Token) : Nat :=
  match text.drop t.start with
  | [] => t.start
  | c :: cs => t.start + ((piece? c cs).map Prod.snd).getD 0

theorem Takes.stop_eq {x : Lexeme} (h : Takes text l p w (some x)) :
    Token.stop text ⟨x, l.offset⟩ = (l.advance (some x) w).offset := by
  obtain ⟨c, cs, rest, rfl, hrest, hpiece⟩ := h.cut
  simp only [Token.stop, hrest, hpiece, Layout.advance, Option.map_some, Option.getD_some]

/-- Why a scan takes no piece at the place `l`: the text is at its end, no pattern matches, or the piece has no meaning. -/
inductive Halts (text : List Char) (l : Layout) : Stop → Prop where
  | ended (hrest : text.drop l.offset = []) : Halts text l .ended
  | blocked {c : Char} {cs : List Char} (hrest : text.drop l.offset = c :: cs) (hpiece : piece? c cs = none) :
      Halts text l (.blocked l.offset)
  | fault {c : Char} {cs : List Char} {p : Piece} {n : Nat} {f : Fault} (hrest : text.drop l.offset = c :: cs)
      (hpiece : piece? c cs = some (p, n)) (hfault : lexeme? l p ((c :: cs).take n) = .error f) : Halts text l (.fault f)

/-- A scan takes a piece, or says nothing more and halts. -/
theorem takes_or_halts (text : List Char) (l : Layout) :
    (∃ p w said, Takes text l p w said) ∨
      ∃ stop, Halts text l stop ∧ scanFrom (text.drop l.offset) 0 l = ⟨[], stop⟩ := by
  cases hrest : text.drop l.offset with
  | nil => exact .inr ⟨.ended, .ended hrest, rfl⟩
  | cons c cs =>
    rw [scanFrom]
    rcases hpiece : piece? c cs with _ | ⟨p, n⟩
    · exact .inr ⟨.blocked l.offset, .blocked hrest hpiece, rfl⟩
    · simp only
      cases hsaid : lexeme? l p ((c :: cs).take n) with
      | error f => exact .inr ⟨.fault f, .fault hrest hpiece hsaid, rfl⟩
      | ok said => exact .inl ⟨p, _, said, .of_piece? hrest hpiece hsaid⟩

/-- A scan is at the end of the text, or takes a piece, or stops short of the end. -/
theorem scanFrom_cases (text : List Char) (l : Layout) :
    text.drop l.offset = [] ∨ (∃ p w said, Takes text l p w said) ∨
      ∃ stop, stop ≠ .ended ∧ scanFrom (text.drop l.offset) 0 l = ⟨[], stop⟩ := by
  rcases takes_or_halts text l with htakes | ⟨stop, hhalts, heq⟩
  · exact .inr (.inl htakes)
  · cases hhalts with
    | ended hrest => exact .inl hrest
    | blocked | fault => exact .inr (.inr ⟨_, (fun h => by cases h), heq⟩)

/-! ## Whole scans -/

/-- The scan of a text comes to the place `l` and has said `ts` before. -/
inductive Passes (text : List Char) : Layout → List Token → Prop where
  | start : Passes text .start []
  | step {l : Layout} {ts : List Token} {p : Piece} {w : List Char} {said : Option Lexeme} (h : Passes text l ts)
      (htakes : Takes text l p w said) : Passes text (l.advance said w) (ts ++ l.said said)

namespace Passes

theorem scan_eq (h : Passes text l ts) : scan text = (scanFrom (text.drop l.offset) 0 l).after ts := by
  induction h with
  | start => rfl
  | step h htakes ih => rw [ih, htakes.scanFrom_eq, Result.after_after]

theorem offset_le (h : Passes text l ts) : l.offset ≤ text.length := by
  cases h with
  | start => exact Nat.zero_le _
  | step h htakes => exact htakes.offset_le

/-- The last token is the one that the scan remembers. -/
theorem previous_eq (h : Passes text l ts) : l.previous = ts.getLast?.map Token.lexeme := by
  induction h with
  | start => rfl
  | @step l ts p w said h htakes ih =>
    cases said with
    | none =>
      simp only [Layout.advance, Layout.said, Option.map_none, Option.toList_none, List.append_nil]
      exact ih
    | some x => simp [Layout.advance, Layout.said]

/-- A scan that comes to the end of its text and no other place takes a piece wherever text is left. -/
theorem takes_of_ended (h : Passes text l ts) (hended : (scan text).stop = .ended) (hrest : text.drop l.offset ≠ []) :
    ∃ p w said, Takes text l p w said := by
  rcases scanFrom_cases text l with hnil | htakes | ⟨stop, hstop, heq⟩
  · exact (hrest hnil).elim
  · exact htakes
  · rw [h.scan_eq, heq] at hended
    exact (hstop hended).elim

end Passes

/-- The tokens that are still to come are said at places that the scan comes to. -/
theorem passes_of_scanFrom {before after : List Token} {t : Token} (h : Passes text l ts)
    (htokens : (scanFrom (text.drop l.offset) 0 l).tokens = before ++ t :: after) :
    ∃ l' p w, Passes text l' (ts ++ before) ∧ l'.offset = t.start ∧ Takes text l' p w (some t.lexeme) := by
  induction hlength : (text.drop l.offset).length using Nat.strongRecOn generalizing l ts before with
  | ind length ih =>
  rcases scanFrom_cases text l with hnil | ⟨p, w, said, htakes⟩ | ⟨stop, -, heq⟩
  · rw [hnil, scanFrom] at htokens
    simp at htokens
  · have hshorter := hlength ▸ htakes.length_drop_lt
    rw [htakes.scanFrom_eq] at htokens
    cases said with
    | none =>
      have hlater := ih _ hshorter (h.step htakes) htokens rfl
      rwa [show l.said none = [] from rfl, List.append_nil] at hlater
    | some x =>
      replace htokens : (⟨x, l.offset⟩ : Token) :: (scanFrom (text.drop (l.advance (some x) w).offset) 0
          (l.advance (some x) w)).tokens = before ++ t :: after := htokens
      cases before with
      | nil =>
        obtain ⟨rfl, -⟩ := List.cons.inj htokens
        exact ⟨l, p, w, by rwa [List.append_nil], rfl, htakes⟩
      | cons u before =>
        obtain ⟨rfl, hrest⟩ := List.cons.inj htokens
        have hlater := ih _ hshorter (h.step htakes) hrest rfl
        rwa [List.append_assoc] at hlater
  · rw [heq] at htokens
    simp at htokens

/-- Every token is said at a place that the scan comes to. -/
theorem passes_of_tokens {before after : List Token} {t : Token} (htokens : (scan text).tokens = before ++ t :: after) :
    ∃ l p w, Passes text l before ∧ l.offset = t.start ∧ Takes text l p w (some t.lexeme) :=
  passes_of_scanFrom .start htokens

/-- From every place, a scan comes to one where it halts, and has said all its tokens before. -/
theorem Passes.halts (h : Passes text l ts) : ∃ l, Passes text l (scan text).tokens ∧ Halts text l (scan text).stop := by
  induction hlength : (text.drop l.offset).length using Nat.strongRecOn generalizing l ts with
  | ind length ih =>
  rcases takes_or_halts text l with ⟨p, w, said, htakes⟩ | ⟨stop, hhalts, heq⟩
  · exact ih _ (hlength ▸ htakes.length_drop_lt) (h.step htakes) rfl
  · have hscan : scan text = ⟨ts, stop⟩ := by rw [h.scan_eq, heq, Result.after, List.append_nil]
    rw [hscan]
    exact ⟨l, h, hhalts⟩

/-- The tokens that were said before a place start before it, each after the ones before it. -/
theorem Passes.increasing (h : Passes text l ts) :
    (∀ t ∈ ts, t.start < l.offset) ∧ ts.Pairwise fun t u => t.start < u.start := by
  induction h with
  | start => simp
  | @step l ts p w said h htakes ih =>
    obtain ⟨hbefore, hpairwise⟩ := ih
    have hsaid : ∀ t ∈ l.said said, t.start = l.offset := by cases said <;> simp [Layout.said]
    refine ⟨fun t ht => ?_, List.pairwise_append.mpr ⟨hpairwise, ?_, fun t ht u hu => ?_⟩⟩
    · rcases List.mem_append.mp ht with ht | ht
      · exact Nat.lt_trans (hbefore t ht) htakes.offset_lt
      · exact hsaid t ht ▸ htakes.offset_lt
    · cases said <;> simp [Layout.said]
    · exact hsaid u hu ▸ hbefore t ht

/-- The offsets of tokens increase. -/
theorem scan_increasing (text : List Char) : ((scan text).tokens.map Token.start).Pairwise (· < ·) := by
  have hstart : Passes text .start [] := .start
  obtain ⟨l, hpasses, -⟩ := hstart.halts
  exact List.pairwise_map.mpr hpasses.increasing.2

end LazyModules.Scan
