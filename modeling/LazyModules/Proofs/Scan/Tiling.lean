import LazyModules.Proofs.Scan.Longest

/-!
# Nothing is lost

The pieces of a scan lie side by side like tiles. The first starts at 0, each of the others where the one before it ends, and
together they are the text up to where the scan stops. A tile says a token, or it is ignored; no other token is said.

**Results.** `Passes.tiling`: at every place that a scan comes to, tiles cover the text before it. `Tiling.eq_of_ends`: there is
only one way to tile a text to an end. `scan_tiles_text`: the scan does it. Each tile is the longest match of all rules in its
place, and after the last one comes the end of the text, or a place where no rule matches, or a longest match of which the
action makes nothing.
-/
namespace LazyModules.Scan

/-- A piece in its place: where it starts, its characters, what is done with it, and what it says. -/
@[ext] structure Tile where
  start : Nat
  chars : List Char
  action : Action
  said : Option Lexeme

def Tile.token? (t : Tile) : Option Token := t.said.map fun x => ⟨x, t.start⟩

/-- The characters of tiles, one after the other. -/
def spread (tiles : List Tile) : List Char := tiles.flatMap Tile.chars

/-- The place after tiles. -/
def Layout.past (tiles : List Tile) : Layout := tiles.foldl (fun l t => l.advance t.said t.chars) .start

/-- A tile that comes after others in a text. -/
structure Tile.Fits (text : List Char) (before : List Tile) (t : Tile) : Prop where
  start : t.start = (spread before).length
  longest : Longest (text.drop t.start) t.chars t.action
  meaning : t.action.read (.past before) t.chars = .ok t.said
  ignored : t.said = none ↔ t.action = .ignore

/-- Every tile fits in where it stands. -/
def Tiling (text : List Char) (tiles : List Tile) : Prop :=
  ∀ before t after, tiles = before ++ t :: after → t.Fits text before

/-- What comes after the last tile, if a scan that stops there is right. -/
def Ends (text : List Char) (tiles : List Tile) : Stop → Prop
  | .ended => spread tiles = text
  | .blocked offset =>
    offset = (spread tiles).length ∧ offset < text.length ∧ ∀ a w, w <+: text.drop offset → ¬ Matched a w
  | .fault f =>
    ∃ w a, Longest (text.drop (spread tiles).length) w a ∧ a.read (.past tiles) w = .error f

variable {text : List Char} {l : Layout} {p : Piece} {w : List Char} {said : Option Lexeme} {ts : List Token}
  {tiles tiles' : List Tile} {t u : Tile} {stop stop' : Stop}

@[simp] theorem spread_concat : spread (tiles ++ [t]) = spread tiles ++ t.chars := by simp [spread]

@[simp] theorem Layout.past_concat : Layout.past (tiles ++ [t]) = (Layout.past tiles).advance t.said t.chars := by
  simp [Layout.past]

/-! ## One way to tile a text -/

theorem Tiling.concat_iff : Tiling text (tiles ++ [t]) ↔ Tiling text tiles ∧ t.Fits text tiles := by
  constructor
  · intro h
    refine ⟨fun before u after heq => h before u (after ++ [t]) ?_, h tiles t [] rfl⟩
    rw [heq, List.append_assoc, List.cons_append]
  · rintro ⟨htiles, ht⟩ before u after heq
    rcases List.eq_nil_or_concat after with rfl | ⟨after, v, rfl⟩
    · obtain ⟨rfl, hlast⟩ := List.append_inj' heq rfl
      cases hlast
      exact ht
    · rw [List.concat_eq_append, ← List.cons_append, ← List.append_assoc] at heq
      exact htiles before u after (List.append_inj' heq rfl).1

theorem Tile.Fits.unique (ht : t.Fits text tiles) (hu : u.Fits text tiles) : t = u := by
  have hstart : t.start = u.start := ht.start.trans hu.start.symm
  obtain ⟨hchars, haction⟩ := ht.longest.unique (hstart ▸ hu.longest)
  have hsaid : t.said = u.said := by
    have hmeaning := hu.meaning
    rw [← hchars, ← haction, ht.meaning] at hmeaning
    exact Except.ok.inj hmeaning
  exact Tile.ext hstart hchars haction hsaid

/-- Of two ways to tile a text, one goes on where the other leaves off. -/
theorem Tiling.prefix_or_prefix (h : Tiling text tiles) (h' : Tiling text tiles') : tiles <+: tiles' ∨ tiles' <+: tiles := by
  induction tiles using List.reverseRecOn with
  | nil => exact .inl List.nil_prefix
  | append_singleton tiles t ih =>
    obtain ⟨htiles, ht⟩ := Tiling.concat_iff.mp h
    rcases ih htiles with ⟨rest, rfl⟩ | hfront
    · cases rest with
      | nil =>
        rw [List.append_nil]
        exact .inr (List.prefix_append tiles [t])
      | cons u rest =>
        obtain rfl := ht.unique (h' tiles u rest rfl)
        exact .inl ⟨rest, by simp⟩
    · exact .inr (hfront.trans (List.prefix_append tiles [t]))

/-- Nothing fits in after the end. -/
theorem Ends.not_fits (h : Ends text tiles stop) : ¬ t.Fits text tiles := by
  intro ht
  have hfront := ht.longest.front
  cases stop with
  | ended =>
    rw [ht.start, show spread tiles = text from h, List.drop_length, List.prefix_nil] at hfront
    exact ht.longest.matched.ne_nil hfront
  | blocked offset =>
    obtain ⟨rfl, -, hnone⟩ := h
    rw [ht.start] at hfront
    exact hnone _ _ hfront ht.longest.matched
  | fault f =>
    obtain ⟨w, a, hlongest, hfault⟩ := h
    rw [← ht.start] at hlongest
    obtain ⟨rfl, rfl⟩ := hlongest.unique ht.longest
    rw [ht.meaning] at hfault
    cases hfault

theorem Ends.eq_of_prefix (h : Ends text tiles stop) (htiling : Tiling text tiles') (hfront : tiles <+: tiles') :
    tiles = tiles' := by
  obtain ⟨rest, rfl⟩ := hfront
  cases rest with
  | nil => rw [List.append_nil]
  | cons t rest => exact (h.not_fits (htiling tiles t rest rfl)).elim

/-- There is only one way to tile a text to an end. -/
theorem Tiling.eq_of_ends (h : Tiling text tiles) (hends : Ends text tiles stop) (h' : Tiling text tiles')
    (hends' : Ends text tiles' stop') : tiles = tiles' := by
  rcases h.prefix_or_prefix h' with hfront | hfront
  · exact hends.eq_of_prefix h' hfront
  · exact (hends'.eq_of_prefix h hfront).symm

/-! ## The way of the scan -/

theorem Takes.longest (h : Takes text l p w said) : Longest (text.drop l.offset) w p.action := by
  obtain ⟨c, cs, rest, rfl, hrest, hpiece⟩ := h.cut
  have hlongest := longest_of_piece? hpiece
  rw [← List.cons_append, List.take_left] at hlongest
  rw [hrest]
  exact hlongest

theorem Takes.read_eq (h : Takes text l p w said) : p.action.read l w = .ok said := by
  obtain ⟨c, cs, rest, rfl, -, hpiece⟩ := h.cut
  have hread := lexeme?_eq_read (l := l) hpiece
  rw [← List.cons_append, List.take_left] at hread
  rw [← hread]
  exact h.meaning

theorem Takes.ignored_iff (h : Takes text l p w said) : said = none ↔ p.action = .ignore := by
  have hsays := h.meaning
  cases p with
  | blank | comment | word | mark | opener =>
    cases hsays
    simp [Piece.action]
  | number | string =>
    simp only [lexeme?] at hsays
    split at hsays <;> cases hsays
    simp [Piece.action]

theorem Passes.length_take (h : Passes text l ts) : (text.take l.offset).length = l.offset := by
  rw [List.length_take, Nat.min_eq_left h.offset_le]

/-- At every place that a scan comes to, the text before it is covered by tiles, which say what has been said. -/
theorem Passes.tiling (h : Passes text l ts) : ∃ tiles, Tiling text tiles ∧ spread tiles = text.take l.offset ∧
    .past tiles = l ∧ tiles.filterMap Tile.token? = ts := by
  induction h with
  | start => exact ⟨[], fun before t after heq => by simp at heq, rfl, rfl, rfl⟩
  | @step l ts p w said h htakes ih =>
    obtain ⟨tiles, htiling, hspread, hpast, rfl⟩ := ih
    have hfits : Tile.Fits text tiles ⟨l.offset, w, p.action, said⟩ := {
      start := by rw [hspread, h.length_take]
      longest := htakes.longest
      meaning := by rw [hpast, htakes.read_eq]
      ignored := htakes.ignored_iff }
    refine ⟨_, Tiling.concat_iff.mpr ⟨htiling, hfits⟩, ?_, ?_, ?_⟩
    · rw [spread_concat, hspread, htakes.take_eq]
    · rw [Layout.past_concat, hpast]
    · rw [List.filterMap_append]
      cases said <;> rfl

/-- Where a scan halts, the text ends, or no rule matches, or the action of the longest match fails. -/
theorem Halts.ends (h : Halts text l stop) (hoffset : (spread tiles).length = l.offset) (hpast : .past tiles = l)
    (hspread : spread tiles = text.take l.offset) : Ends text tiles stop := by
  cases h with
  | ended hrest =>
    show spread tiles = text
    rw [hspread, List.take_of_length_le (List.drop_eq_nil_iff.mp hrest)]
  | @blocked c cs hrest hpiece =>
    have hlength := congrArg List.length hrest
    rw [List.length_drop, List.length_cons] at hlength
    refine ⟨hoffset.symm, by omega, fun a w hw => ?_⟩
    rw [hrest] at hw
    exact not_matched_of_piece? hpiece hw
  | @fault c cs p n f hrest hpiece hfault =>
    refine ⟨(c :: cs).take n, p.action, ?_, ?_⟩
    · rw [hoffset, hrest]
      exact longest_of_piece? hpiece
    · rw [hpast, ← lexeme?_eq_read hpiece]
      exact hfault

/-- The tokens of a text and what is ignored between them are tiles of it, each the longest match of all rules in its place.
They cover the text without gap or overlap, from 0 to its end, or to where no rule matches, or to where an action fails. No
other tiles do so. -/
theorem scan_tiles_text (text : List Char) : ∃ tiles, Tiling text tiles ∧ spread tiles <+: text ∧
    (scan text).tokens = tiles.filterMap Tile.token? ∧ ((scan text).tokens.map Token.start).Pairwise (· < ·) ∧
    Ends text tiles (scan text).stop ∧ ∀ tiles' stop, Tiling text tiles' → Ends text tiles' stop → tiles' = tiles := by
  have hstart : Passes text .start [] := .start
  obtain ⟨l, hpasses, hhalts⟩ := hstart.halts
  obtain ⟨tiles, htiling, hspread, hpast, htokens⟩ := hpasses.tiling
  have hoffset : (spread tiles).length = l.offset := by rw [hspread, hpasses.length_take]
  have hends := hhalts.ends hoffset hpast hspread
  refine ⟨tiles, htiling, ?_, htokens.symm, scan_increasing text, hends, fun tiles' stop htiling' hends' => ?_⟩
  · rw [hspread]
    exact List.take_prefix l.offset text
  · exact htiling'.eq_of_ends hends' htiling hends

-- A point or an exponent without a digit after it is no part of the number, and a string that does not end is no piece.
example : scan "1.x+1e+=>\"a".toList =
    ⟨[⟨.literal (.int 1), 0⟩, ⟨.mark .dot, 1⟩, ⟨.name "x", 2⟩, ⟨.mark .plus, 3⟩, ⟨.literal (.int 1), 4⟩, ⟨.name "e", 5⟩,
      ⟨.mark .plus, 6⟩, ⟨.mark .arrow, 7⟩], .blocked 9⟩ := rfl

end LazyModules.Scan
