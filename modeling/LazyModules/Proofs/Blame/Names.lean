import LazyModules.Proofs.Blame.Terms
import LazyModules.Proofs.Discipline.Watch
import LazyModules.Proofs.Scan.Words
import LazyModules.Proofs.Scoping.Lookups

/-!
# Where names are blamed

A lookup fails if nothing in sight defines its name, or if the value of the name depends on itself. The error says the
name and remembers the module, but not the offset of the lookup. So the report shows the first place in the text where
the name stands as a whole word, whatever that place is, and no place if there is none: a name right after the digits of
a number is a token and still no whole word.

**Results.** `whole_name_iff`: a name that is a token is a whole word unless digits come right before it.
`name_blamed_at_first_word`: in every run, an error about a name was raised by a lookup of it, and is reported at the
first whole word; so it is reported at a lookup exactly if that is the first. `name_blamed_in_comment`: a name is blamed
in a comment.
-/
namespace LazyModules

namespace Locate

variable {text : List Char} {name : String} {start : Nat}

/-- A name that is a token is a whole word unless digits come right before it. -/
theorem whole_name_iff (hended : (Scan.scan text).stop = .ended)
    (hmem : (⟨.name name, start⟩ : Token) ∈ (Scan.scan text).tokens) :
    Whole text name.toList start ↔ ∀ c ∈ (text.take start).getLast?, Numeral.isDigit c = false := by
  obtain ⟨hspelled, hvisible⟩ := Scan.scan_spells text _ hmem name rfl
  obtain ⟨hword, hbefore, hafter⟩ := Scan.name_borders hended hmem
  have hright : joins name.toList.getLast? (text.drop (start + name.toList.length)).head? = false := by
    cases hnext : (text.drop (start + name.toList.length)).head? with
    | none => simp [joins]
    | some c => simp [joins, hafter c hnext]
  obtain ⟨a, as, hname⟩ := List.exists_cons_of_ne_nil hvisible.1
  have hhead : name.toList.head?.any Text.isWord = true := by
    rw [hname]
    exact hword a (by simp [hname])
  simp only [Whole, hspelled, hright, true_and, and_true]
  rw [joins, hhead, Bool.and_true]
  cases hlast : (text.take start).getLast? with
  | none => simp
  | some c =>
    have hiff : Text.isWord c = Numeral.isDigit c := Bool.eq_iff_iff.mpr ⟨hbefore c hlast, Scan.isWord_of_isDigit⟩
    simp [hiff]

/-- A term that is looked for without an offset is shown in the row and column of an offset exactly if that is where it
first stands as a whole word. -/
theorem rowCol_findTerm_iff {term : List Char} (hterm : Text.Visible term) (text : List Char) (j : Nat) :
    (findTerm text term none).map (Text.rowCol text) = some (Text.rowCol text j) ↔ FirstWhole text term j := by
  rw [← findTerm_none hterm]
  constructor
  · intro h
    obtain ⟨p, hp, hplace⟩ := Option.map_eq_some_iff.mp h
    obtain ⟨i, rfl⟩ := eq_natCast_of_findTerm hp
    rwa [Text.rowCol_inj text hplace] at hp
  · intro h
    rw [h]
    rfl

end Locate

/-! ## Errors about names -/

/-- The name that was looked up, if that went wrong. -/
def SemanticCause.name? : SemanticCause → Option String
  | .undefinedName name _ => some name
  | .circular name => name
  | _ => none

/-- A report about a name shows it without an offset. -/
theorem Report.blame_name {cause : SemanticCause} {name : String} (hname : cause.name? = some name) (hne : name ≠ "") :
    ∃ kind complaint, complaint.term = name ∧ complaint.near = none ∧
      ∀ (r : Report) address, r.blame cause address = .ok (r.locatedError kind address complaint) := by
  cases cause with
  | undefinedName n available =>
    obtain rfl := Option.some.inj hname
    exact ⟨.undefinedName, ⟨_, n, available, none⟩, rfl, rfl, fun _ _ => rfl⟩
  | circular n =>
    obtain rfl : n = some name := hname
    have hempty : ((some name).getD "").isEmpty = false := by simp [hne]
    refine ⟨.located, ⟨SemanticCause.message (.circular (some name)), name, [], none⟩, rfl, rfl, fun r address => ?_⟩
    simp only [Report.blame, hempty, Bool.false_eq_true, if_false]
    rfl
  | complaint c | cyclicImport importer n cycle | grievance message extra | unclassified message => cases hname

namespace Engine

/-- An error about a name, if it is one, was raised by a lookup of the name at a place in the module that it remembers.
If it says that nothing in sight defines the name, then so it is at that place, and the names that it offers are those
that can be seen from there. -/
def LookedUp (modules : Table Module) (e : SemanticError) : Prop :=
  ∀ name, e.cause.name? = some name → ∃ address m Γ start, e.address = some address ∧
    Table.find? modules address = some m ∧ (Γ, .lookup name start) ∈ m.places ∧
    ∀ available, e.cause = .undefinedName name available → ¬ m.Sees Γ name ∧ available = m.names Γ

/-- Errors about names are raised where the names are looked up. -/
def naming (c : Config) : Watch (lexical c) where
  holds := LookedUp
  mono hle he name hname := by
    obtain ⟨address, m, Γ, start, haddress, hm, hplace⟩ := he name hname
    exact ⟨address, m, Γ, start, haddress, hle _ _ hm, hplace⟩
  objection _ _ _ _ hname := by cases hname
  undefined {h name start s} _ hvisit hlookup := by
    rintro name' hname
    obtain rfl := Option.some.inj hname
    obtain ⟨m, Γ, hm, hplace, hfits⟩ := hvisit
    refine ⟨s.address, m, Γ, start, rfl, hm, hplace, fun available hcause => ?_⟩
    obtain rfl := (SemanticCause.undefinedName.inj hcause).2
    have hnames := Scope.names_of_fits hfits
    rw [← Module.mem_names_iff, ← hnames]
    exact ⟨Scope.lookup?_eq_none_iff.mp hlookup, rfl⟩
  circular _ _ hname := by cases hname
  circularName {h name start s} _ hvisit := by
    rintro name' hname
    obtain rfl := Option.some.inj hname
    obtain ⟨m, Γ, hm, hplace, -⟩ := hvisit
    exact ⟨s.address, m, Γ, start, rfl, hm, hplace, nofun⟩
  cycle _ _ _ hname := by cases hname

/-- Names are blamed at the first whole word. In every run, an error that says that a name is not found, or that its
value depends on itself, remembers a module that looks the name up, the module that it is reported against unless its
address is empty. If the name is not found, then nothing in sight of that lookup defines it.

The report shows the first place in the text of the module where the name stands as a whole word. So it shows the row
and column of a lookup exactly if the name is no whole word before that and no digit comes right before the lookup. -/
theorem name_blamed_at_first_word {depth : Nat} {library : Library} {requests : List Request} {e : SemanticError}
    {against name : String}
    (hblamed : .blamed e against ∈
      (serve ⟨Reading.ofText, depth⟩ byNeed requests (.start library)).2.rest.outer.journal)
    (hname : e.cause.name? = some name) :
    let s := (serve ⟨Reading.ofText, depth⟩ byNeed requests (.start library)).2.rest.outer
    ∃ m points, e.address = some m.address ∧ (m.address ≠ "" → against = m.address) ∧
      Table.find? s.modules m.address = some m ∧
      Table.find? s.library.cache.loaded m.address = some (.text points) ∧
      (∃ Γ start, (Γ, .lookup name start) ∈ m.places ∧
        ∀ available, e.cause = .undefinedName name available → ¬ m.Sees Γ name ∧ available = m.names Γ) ∧
      let text := (Text.legible points).toList
      s.report.source m.address = text ∧
      ∃ d : Diagnostic, d.address = m.address ∧
        (∀ r : Report, r.source m.address = text → r.blame e.cause m.address = .ok (r.emit d)) ∧
        (∀ i : Nat, d.position = some (i : Int) ↔ Locate.FirstWhole text name.toList i) ∧
        ∀ Γ start, (Γ, .lookup name start) ∈ m.places → name.toList <+: text.drop start ∧
          (d.position.map (Text.rowCol text) = some (Text.rowCol text start) ↔
            (∀ i < start, ¬ Locate.Whole text name.toList i) ∧
              ∀ c ∈ (text.take start).getLast?, Numeral.isDigit c = false) := by
  intro s
  have hidle : (lexical ⟨Reading.ofText, depth⟩).Idle (.start library) := ⟨lexical_start _ library, rfl⟩
  obtain ⟨-, ⟨hinv, -⟩, -⟩ := Conduct.serve_keeps (lexical_lasts _) Conduct.byNeed_walks requests hidle
  have hinv : Lexical ⟨Reading.ofText, depth⟩
    (serve ⟨Reading.ofText, depth⟩ byNeed requests (.start library)).2 := hinv
  have hsound : (naming ⟨Reading.ofText, depth⟩).Sound s :=
    Watch.serve_sound (lexical_lasts _) requests hidle fun e a he => by cases he
  obtain ⟨address, m, Γ, start, haddress, hm, hplace, hunseen⟩ := hsound e against hblamed name hname
  obtain ⟨-, other, hagainst⟩ := hinv.blamed e against hblamed
  obtain ⟨rfl, points, said, htext, hsaid, hdeclarations, hbody, -⟩ := hinv.modules address m hm
  have hended := Grammar.stop_of_accepted hsaid
  have htoken {Γ start} (hplace : (Γ, .lookup name start) ∈ m.places) := name_of_lookup hsaid hdeclarations hbody hplace
  have hvisible : Text.Visible name.toList := (Scan.scan_spells _ _ (htoken hplace) name rfl).2
  obtain ⟨kind, complaint, rfl, hnear, hblame⟩ := Report.blame_name hname fun hempty => hvisible.1 (by simp [hempty])
  refine ⟨m, points, haddress, fun hne => ?_, hm, htext, ⟨Γ, start, hplace, hunseen⟩, Session.source_report htext,
    ⟨m.address, kind, complaint.message, Locate.findTerm (Text.legible points).toList complaint.term.toList none,
      complaint.term.length, complaint.extra⟩, rfl, fun r hr => ?_, Locate.findTerm_none hvisible _,
    fun Δ i hlookup => ⟨(Scan.scan_spells _ _ (htoken hlookup) _ rfl).1, ?_⟩⟩
  · have hempty : (!m.address.isEmpty) = true := by simp [hne]
    rw [hagainst, culprit, haddress, Option.filter_some, if_pos hempty, Option.getD_some]
  · rw [hblame, Report.locatedError, hr, hnear]
  · rw [Locate.rowCol_findTerm_iff hvisible, Locate.FirstWhole, Locate.whole_name_iff hended (htoken hlookup), and_comm]

/-- A function of another module that looks up a name which only its caller has. -/
theorem name_blamed_at_first_word_imported :
    let library : Library := ⟨⟨none, [], [("m", .text (Text.pointsOf "f \"f\" y = 1 f(y)")),
      ("f", .text (Text.pointsOf "x => {y: y}.y"))]⟩, .empty false, ⟨.empty, [], []⟩⟩
    let e : SemanticError := ⟨.undefinedName "y" ["x"], some "f"⟩
    let s := (serve ⟨Reading.ofText, 8⟩ byNeed [.evaluate "m"] (.start library)).2.rest.outer
    .blamed e "f" ∈ s.journal ∧
      ∃ m points, e.address = some m.address ∧ (m.address ≠ "" → "f" = m.address) ∧
        Table.find? s.modules m.address = some m ∧
        Table.find? s.library.cache.loaded m.address = some (.text points) ∧
        (∃ Γ start, (Γ, .lookup "y" start) ∈ m.places ∧
          ∀ available, e.cause = .undefinedName "y" available → ¬ m.Sees Γ "y" ∧ available = m.names Γ) ∧
        let text := (Text.legible points).toList
        s.report.source m.address = text ∧
        ∃ d : Diagnostic, d.address = m.address ∧
          (∀ r : Report, r.source m.address = text → r.blame e.cause m.address = .ok (r.emit d)) ∧
          (∀ i : Nat, d.position = some (i : Int) ↔ Locate.FirstWhole text "y".toList i) ∧
          ∀ Γ start, (Γ, .lookup "y" start) ∈ m.places → "y".toList <+: text.drop start ∧
            (d.position.map (Text.rowCol text) = some (Text.rowCol text start) ↔
              (∀ i < start, ¬ Locate.Whole text "y".toList i) ∧
                ∀ c ∈ (text.take start).getLast?, Numeral.isDigit c = false) := by
  dsimp only
  refine ⟨?blamed, name_blamed_at_first_word ?blamed rfl⟩
  decide +kernel

/-- A name is blamed in a comment: it is looked up in the second row, and the report shows the first. -/
theorem name_blamed_in_comment :
    let text := "# x\nx"
    let library : Library := ⟨⟨none, [], [("m", .text (Text.pointsOf text))]⟩, .empty false, ⟨.empty, [], []⟩⟩
    let s := (serve ⟨Reading.ofText, 4⟩ byNeed [.evaluate "m"] (.start library)).2.rest.outer
    .blamed ⟨.undefinedName "x" [], some "m"⟩ "m" ∈ s.journal ∧
      ((Table.find? s.modules "m").bind Module.body).map (fun e => (e.lookup?, e.start)) = some (some "x", 4) ∧
      Text.rowCol text.toList 4 = (2, 1) ∧
      s.report.printed = "Error: Name not found: x\nm\n1:3: # \x1b[43mx\x1b[0m\n" := by
  refine ⟨?_, ?_, ?_, ?_⟩ <;> decide +kernel

end Engine

end LazyModules
