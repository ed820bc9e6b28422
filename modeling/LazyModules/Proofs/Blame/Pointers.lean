import LazyModules.Proofs.Blame.Spelling
import LazyModules.Proofs.Scoping.Lexical

/-!
# Blame lands on what failed

A complaint remembers the module whose text it is about, a term, and the offset where the term stood. The
report looks for the term in that text, near that offset, and would take another occurrence if the term were
not there. It is there.

**Results.** `findTerm_of_prefix`: a term that stands where it is expected is found there.
`blame_lands_on_term`: in every run, a complaint that is reported points at its term.
-/
namespace LazyModules

namespace Locate

theorem clampIndex_natCast (n i : Nat) : Text.clampIndex n (i : Int) = min i n := by
  rw [Text.clampIndex, if_neg (by omega), Int.toNat_natCast]

theorem sliceFrom_natCast (cs : List Char) (n : Nat) : Text.sliceFrom cs (n : Int) = cs.drop n := by
  rw [Text.sliceFrom, clampIndex_natCast]
  rcases Nat.le_total n cs.length with hle | hle
  · rw [Nat.min_eq_left hle]
  · rw [Nat.min_eq_right hle, List.drop_length, List.drop_eq_nil_of_le hle]

/-- A term that stands where it is expected is found there. -/
theorem findTerm_of_prefix {text term : List Char} {near : Nat} (h : term <+: text.drop near)
    (hterm : Text.Visible term) : findTerm text term (some near) = some (near : Int) := by
  have hline : '\n' ∉ term := fun hmem => absurd (hterm.2 _ hmem).1 (by decide)
  have hwhole : (term.isEmpty || term.contains '\n') = false := by simp [hterm.1, hline]
  simp only [findTerm, hwhole, Bool.false_eq_true, if_false, sliceFrom_natCast]
  rw [if_pos (List.isPrefixOf_iff_prefix.mpr h)]

end Locate

namespace Text

/-- A visible character does not stand in for the half of a surrogate pair. -/
theorem char_legible {p : Point} (h : p.legible ≤ '~') : Point.char p.legible = p := by
  cases p with
  | char c => rfl
  | half k =>
    have hvalid : (0xe000 + k.val).isValidChar := .inr ⟨by omega, by omega⟩
    have hval : (Char.ofNat (0xe000 + k.val)).toNat = 0xe000 + k.val := by
      rw [Char.ofNat, dif_pos hvalid]
      rfl
    have hle : (Char.ofNat (0xe000 + k.val)).toNat ≤ '~'.toNat := h
    have htilde : '~'.toNat = 126 := rfl
    omega

/-- A visible term that stands in a text of characters stands in the code points as well. -/
theorem pointsOf_prefix {points : List Point} {term : String} {near : Nat}
    (h : term.toList <+: (legible points).toList.drop near) (hterm : Visible term.toList) :
    pointsOf term <+: points.drop near := by
  rw [legible, String.toList_ofList, ← List.map_drop, List.prefix_map_iff] at h
  obtain ⟨front, hfront, hmap⟩ := h
  have hchars : pointsOf term = front := by
    calc pointsOf term = front.map (Point.char ∘ Point.legible) := by rw [pointsOf, hmap, List.map_map]
      _ = front.map id := List.map_congr_left fun p hp =>
          char_legible (hterm.2 _ (hmap ▸ List.mem_map_of_mem hp)).2
      _ = front := List.map_id front
  rwa [hchars]

end Text

/-- A text that has been loaded is the one that the report looks at. -/
theorem Session.source_report {s : Session} {address : String} {points : List Text.Point}
    (h : Table.find? s.library.cache.loaded address = some (.text points)) :
    s.report.source address = (Text.legible points).toList := by
  have htexts : Table.find? s.library.cache.texts address = some (Text.legible points) := by
    unfold Cache.texts
    generalize s.library.cache.loaded = loaded at h
    induction loaded with
    | nil => cases h
    | cons entry loaded ih =>
      obtain ⟨n, d⟩ := entry
      rw [Table.find?_cons] at h
      by_cases hn : address = n
      · rw [if_pos hn] at h
        obtain rfl := Option.some.inj h
        exact (Table.find?_cons _ _ _ _).trans (if_pos hn)
      · rw [if_neg hn] at h
        cases d with
        | text s => exact (Table.find?_cons _ _ _ _).trans ((if_neg hn).trans (ih h))
        | null | bool _ | int _ | float _ | array _ | object _ => exact ih h
  rw [Session.report, Report.source, Report.attach, htexts]
  rfl

namespace Engine

/-- Blame lands on what failed. In every run, if an error that is reported is a complaint, then it remembers
a module whose text has been loaded, the module that it is reported against unless its address is empty. It
has an offset, and the text has the term of the complaint there; so that is where the report finds it, and
at no other occurrence. -/
theorem blame_lands_on_term {depth : Nat} {library : Library} {requests : List Request} {e : SemanticError}
    {against : String} {complaint : Complaint}
    (hblamed : .blamed e against ∈
      (serve ⟨Reading.ofText, depth⟩ byNeed requests (.start library)).2.rest.outer.journal)
    (hcause : e.cause = .complaint complaint) :
    let s := (serve ⟨Reading.ofText, depth⟩ byNeed requests (.start library)).2.rest.outer
    ∃ address points, ∃ near : Nat, e.address = some address ∧ (address ≠ "" → against = address) ∧
      Table.find? s.library.cache.loaded address = some (.text points) ∧
      complaint.near = some (near : Int) ∧ Text.pointsOf complaint.term <+: points.drop near ∧
      Locate.findTerm (s.report.source address) complaint.term.toList complaint.near = complaint.near := by
  intro s
  obtain ⟨-, ⟨hinv, -⟩, -⟩ := Conduct.serve_keeps (lexical_lasts ⟨Reading.ofText, depth⟩) Conduct.byNeed_walks
    requests (h := .start library) ⟨lexical_start _ library, rfl⟩
  have hinv : Lexical ⟨Reading.ofText, depth⟩
    (serve ⟨Reading.ofText, depth⟩ byNeed requests (.start library)).2 := hinv
  obtain ⟨hpointed, other, hagainst⟩ := hinv.blamed e against hblamed
  obtain ⟨address, m, Γ, x, near, haddress, hm, hplace, hpointer, hnear⟩ := hpointed complaint hcause
  obtain ⟨rfl, points, said, htext, hsaid, hdeclarations, hbody, -⟩ := hinv.modules address m hm
  obtain ⟨hspelled, hvisible⟩ := pointer_spelled hsaid hdeclarations hbody hplace hpointer
  refine ⟨m.address, points, near, haddress, fun hne => ?_, htext, hnear,
    Text.pointsOf_prefix hspelled hvisible, ?_⟩
  · have hempty : (!m.address.isEmpty) = true := by simp [hne]
    rw [hagainst, culprit, haddress, Option.filter_some, if_pos hempty, Option.getD_some]
  · rw [Session.source_report htext, hnear]
    exact Locate.findTerm_of_prefix hspelled hvisible

/-- A function that fails where it is called from another module. -/
theorem blame_lands_on_term_imported :
    let library : Library := ⟨⟨none, [], [("m", .text (Text.pointsOf "f \"f\" f(1)")),
      ("f", .text (Text.pointsOf "x => x + nil"))]⟩, .empty false, ⟨.empty, [], []⟩⟩
    let complaint : Complaint := ⟨"Operator '+' does not work on number and nil.", "+", [], some 7⟩
    let s := (serve ⟨Reading.ofText, 4⟩ byNeed [.evaluate "m"] (.start library)).2.rest.outer
    .blamed ⟨.complaint complaint, some "f"⟩ "f" ∈ s.journal ∧
      ∃ address points, ∃ near : Nat, some "f" = some address ∧ (address ≠ "" → "f" = address) ∧
        Table.find? s.library.cache.loaded address = some (.text points) ∧
        complaint.near = some (near : Int) ∧ Text.pointsOf complaint.term <+: points.drop near ∧
        Locate.findTerm (s.report.source address) complaint.term.toList complaint.near = complaint.near := by
  dsimp only
  refine ⟨?blamed, blame_lands_on_term ?blamed rfl⟩
  decide +kernel

end Engine

end LazyModules
