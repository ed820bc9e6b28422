import LazyModules.Library
import LazyModules.Proofs.Table
import LazyModules.Proofs.Text.Utf8
import Mathlib.Data.List.Nodup
import Mathlib.Data.List.TakeWhile

/-!
# Snapshots

A table of texts is written as an object of strings, and what is written can be read: the same entries in
the same order, whatever characters they hold, although a file is read with every line break as LF.

* `Document.read_tableText`: the text of a table reads as that table.
* `Disk.write_reads`: a file that was written is there and holds what was written.
* `Disk.HoldsText.holds`, `Disk.holds_write`: a snapshot can be read from the text or the bytes of a file.
-/
namespace LazyModules

theorem Table.not_mem_keys_of_nodup {κ α : Type} {done rows : List (κ × α)} {k : κ} {v : α}
    (h : (Table.keys (done ++ (k, v) :: rows)).Nodup) : k ∉ Table.keys done := by
  simp only [Table.keys, List.map_append, List.map_cons, List.nodup_middle, List.nodup_cons, List.mem_append,
    not_or] at h
  exact h.1.1

/-! ## Strings -/

namespace Document

open Text (Point)

/-- The characters at the front are a string and its closing quote; `rest` is behind it. -/
def Spells (start : Nat) (cs : List Char) (s : List Point) (rest : List Char) : Prop :=
  ∀ offset, ∃ offset', readString start cs 0 offset = .ok (s, ⟨rest, offset'⟩)

theorem spells_quote (start : Nat) (rest : List Char) : Spells start ('"' :: rest) [] rest := by
  intro offset
  exact ⟨offset + 1, by simp [readString]⟩

/-- The characters of an escape are passed over. -/
theorem readString_skip (start : Nat) (front rest : List Char) (offset : Nat) :
    readString start (front ++ rest) front.length offset = readString start rest 0 (offset + front.length) := by
  induction front generalizing offset with
  | nil => rfl
  | cons c front ih =>
    rw [List.cons_append, List.length_cons, readString, ih, Nat.add_right_comm, Nat.add_assoc]

/-- A character that stands for itself. -/
theorem Spells.plain {start : Nat} {c : Char} {cs : List Char} {s : List Point} {rest : List Char}
    (hq : c ≠ '"') (hb : c ≠ '\\') (hc : ¬c.toNat < 0x20) (h : Spells start cs s rest) :
    Spells start (c :: cs) (.char c :: s) rest := by
  intro offset
  obtain ⟨offset', h⟩ := h (offset + 1)
  refine ⟨offset', ?_⟩
  simp only [readString, hq, hb, hc, if_false, h]
  rfl

/-- A character that a backslash and a letter stand for. -/
theorem Spells.escape {start : Nat} {d c : Char} {cs : List Char} {s : List Point} {rest : List Char}
    (hd : escape? d = some c) (hu : d ≠ 'u') (h : Spells start cs s rest) :
    Spells start ('\\' :: d :: cs) (.char c :: s) rest := by
  intro offset
  obtain ⟨offset', h⟩ := h (offset + 2)
  refine ⟨offset', ?_⟩
  have hskip := readString_skip start [d] cs (offset + 1)
  simp only [List.cons_append, List.nil_append, List.length_singleton] at hskip
  rw [readString]
  · simp only [hd, hskip, h, if_false, if_true, Except.map, Char.reduceEq]
  · exact hu

/-- A control character as four hexadecimal digits. -/
theorem codeUnit?_hexDigits : ∀ n : Fin 0x20,
    (Text.hexDigits 4 n).length = 4 ∧ codeUnit? (Text.hexDigits 4 n) = some n.val := by
  decide

/-- A control character that `\u` and four digits stand for. -/
theorem Spells.unit {start : Nat} {c : Char} {cs : List Char} {s : List Point} {rest : List Char}
    (hc : c.toNat < 0x20) (hcs : cs ≠ []) (h : Spells start cs s rest) :
    Spells start ('\\' :: 'u' :: (Text.hexDigits 4 c.toNat ++ cs)) (.char c :: s) rest := by
  intro offset
  obtain ⟨offset', h⟩ := h (offset + 6)
  refine ⟨offset', ?_⟩
  obtain ⟨hlength, hvalue⟩ := codeUnit?_hexDigits ⟨c.toNat, hc⟩
  simp only at hlength hvalue
  have hskip := readString_skip start ('u' :: Text.hexDigits 4 c.toNat) cs (offset + 1)
  have hunits : readCodeUnits (offset + 1) (Text.hexDigits 4 c.toNat ++ cs) = .ok (.char c, 4) := by
    have hlong : ¬(Text.hexDigits 4 c.toNat ++ cs).length < 5 := by
      have := List.length_pos_iff.mpr hcs
      rw [List.length_append]
      omega
    have hcode : codeUnit? (Text.hexDigits 4 c.toNat ++ cs) = some c.toNat := by
      obtain ⟨w, x, y, z, hdigits⟩ : ∃ w x y z, Text.hexDigits 4 c.toNat = [w, x, y, z] := by
        generalize Text.hexDigits 4 c.toNat = ds at hlength
        match ds, hlength with
        | [w, x, y, z], _ => exact ⟨w, x, y, z, rfl⟩
      rw [hdigits] at hvalue ⊢
      exact hvalue
    have hlow : isHighSurrogate c.toNat = false := by
      simp [isHighSurrogate]
      omega
    have hunit : Point.ofUnit c.toNat = .char c := by
      rw [Point.ofUnit, dif_neg (by omega), Char.ofNat_toNat]
    simp only [readCodeUnits, hlong, if_false, hcode, hlow, Bool.false_and, Bool.false_eq_true, hunit]
  rw [List.length_cons, hlength] at hskip
  rw [readString]
  simp only [hunits, List.cons_append] at hskip ⊢
  simp only [hskip, h, if_false, if_true, Except.map, Char.reduceEq]

/-- The three ways to write a character: with a letter behind a backslash, with its number, or as it is. -/
theorem escapeChar_cases (c : Char) :
    (∃ d, escape? d = some c ∧ d ≠ 'u' ∧ d ≠ '\r' ∧ escapeChar c = ['\\', d]) ∨
    (c.toNat < 0x20 ∧ escapeChar c = '\\' :: 'u' :: Text.hexDigits 4 c.toNat) ∨
    (c ≠ '"' ∧ c ≠ '\\' ∧ ¬c.toNat < 0x20 ∧ escapeChar c = [c]) := by
  by_cases hletter : c ∈ ['"', '\\', '\n', '\r', '\t', '\x08', '\x0c']
  · refine .inl ?_
    simp only [List.mem_cons, List.not_mem_nil, or_false] at hletter
    rcases hletter with rfl | rfl | rfl | rfl | rfl | rfl | rfl
    · exact ⟨'"', by decide⟩
    · exact ⟨'\\', by decide⟩
    · exact ⟨'n', by decide⟩
    · exact ⟨'r', by decide⟩
    · exact ⟨'t', by decide⟩
    · exact ⟨'b', by decide⟩
    · exact ⟨'f', by decide⟩
  · refine .inr ?_
    simp only [List.mem_cons, List.not_mem_nil, or_false, not_or] at hletter
    obtain ⟨hq, hb, hn, hr, ht, hbell, hfeed⟩ := hletter
    by_cases hc : c.toNat < 0x20
    · exact .inl ⟨hc, by simp [escapeChar, *]⟩
    · exact .inr ⟨hq, hb, hc, by simp [escapeChar, *]⟩

theorem Spells.escapeChar {start : Nat} (c : Char) {cs : List Char} {s : List Point} {rest : List Char}
    (hcs : cs ≠ []) (h : Spells start cs s rest) :
    Spells start (Document.escapeChar c ++ cs) (.char c :: s) rest := by
  obtain ⟨d, hd, hu, -, he⟩ | ⟨hc, he⟩ | ⟨hq, hb, hc, he⟩ := escapeChar_cases c
  · rw [he]
    exact h.escape hd hu
  · rw [he]
    exact h.unit hc hcs
  · rw [he]
    exact h.plain hq hb hc

/-- What stands between the quotes for a string is that string. -/
theorem spells_escaped (start : Nat) (cs rest : List Char) :
    Spells start (cs.flatMap Document.escapeChar ++ '"' :: rest) (cs.map .char) rest := by
  induction cs with
  | nil => exact spells_quote start rest
  | cons c cs ih =>
    rw [List.flatMap_cons, List.append_assoc]
    exact ih.escapeChar c (by simp)

/-- A carriage return is never written as it is. -/
theorem return_not_mem_escapeChar (c : Char) : '\r' ∉ escapeChar c := by
  obtain ⟨d, -, -, hd, he⟩ | ⟨hc, he⟩ | ⟨-, -, hc, he⟩ := escapeChar_cases c
  · rw [he]
    simp [hd.symm]
  · have hdigits : ∀ n : Fin 0x20, '\r' ∉ Text.hexDigits 4 n := by decide
    rw [he]
    simpa using hdigits ⟨c.toNat, hc⟩
  · rw [he, List.mem_singleton]
    rintro rfl
    exact hc (by decide)

/-! ## Tables of texts -/

def quote (s : String) : List Char := '"' :: s.toList.flatMap escapeChar ++ ['"']

/-- The rows of a table as they stand in its text, the first after `front`. -/
def rowsText (front : List Char) : List (String × String) → List Char
  | [] => []
  | (k, v) :: rows => front ++ (quote k ++ (':' :: ' ' :: quote v ++ rowsText [',', '\n', ' ', ' '] rows))

def tableText : List (String × String) → List Char
  | [] => ['{', '}']
  | rows => '{' :: rowsText ['\n', ' ', ' '] rows ++ ['\n', '}']

/-- The fields of the object that stands for a table of texts. -/
def fieldsOf (rows : List (String × String)) : List (List Point × Document) :=
  rows.map fun r => (Text.pointsOf r.1, .text (Text.pointsOf r.2))

theorem writeString_pointsOf (s : String) : writeString (Text.pointsOf s) = (quote s).map .char := by
  simp [writeString, Text.pointsOf, quote, escapePoint, List.flatMap_map, List.map_flatMap]

theorem fieldPieces_fieldsOf (front : List Char) (rows : List (String × String)) :
    (fieldPieces 1 (front.map .char) (fieldsOf rows)).flatten = (rowsText front rows).map .char := by
  induction rows generalizing front with
  | nil => rfl
  | cons r rows ih =>
    have hnext := ih [',', '\n', ' ', ' ']
    simp only [List.map_cons, List.map_nil] at hnext
    have hcolon : Text.pointsOf ": " = [.char ':', .char ' '] := by decide
    simp only [fieldsOf, List.map_cons] at hnext ⊢
    simp [fieldPieces, rowsText, piecesAt, writeScalar?, writeString_pointsOf, newline, hcolon, List.replicate,
      hnext]

theorem pieces_fieldsOf (rows : List (String × String)) :
    (Document.object (fieldsOf rows)).pieces.flatten = (tableText rows).map .char := by
  cases rows with
  | nil => rfl
  | cons r rows =>
    have hrows := fieldPieces_fieldsOf ['\n', ' ', ' '] (r :: rows)
    simp only [List.map_cons, List.map_nil, fieldsOf] at hrows
    simp [pieces, fieldsOf, piecesAt, tableText, newline, List.replicate, hrows]

/-- Characters have no halves among them. -/
theorem halfRun?_eq_none {ps : List Point} (h : ∀ p ∈ ps, p.isHalf = false) (offset : Nat) :
    Text.halfRun? offset ps = none := by
  induction ps generalizing offset with
  | nil => rfl
  | cons p ps ih =>
    cases p with
    | char c => exact ih (fun q hq => h q (List.mem_cons_of_mem _ hq)) _
    | half k => cases h _ (List.mem_cons_self ..)

theorem halfRun?_pieces {rows : List (String × String)} {piece : List Point}
    (h : piece ∈ (Document.object (fieldsOf rows)).pieces) : Text.halfRun? 0 piece = none := by
  refine halfRun?_eq_none (fun p hp => ?_) 0
  have hp : p ∈ (Document.object (fieldsOf rows)).pieces.flatten := List.mem_flatten.mpr ⟨piece, h, hp⟩
  rw [pieces_fieldsOf] at hp
  obtain ⟨c, -, rfl⟩ := List.mem_map.mp hp
  rfl

/-- A table of texts can be encoded. -/
theorem unencodable?_fieldsOf (rows : List (String × String)) :
    unencodable? (Document.object (fieldsOf rows)).pieces = none :=
  List.findSome?_eq_none_iff.mpr fun _ => halfRun?_pieces

theorem encode_fieldsOf (rows : List (String × String)) :
    encode (Document.object (fieldsOf rows)).pieces = String.ofList (tableText rows) := by
  have hall : (Document.object (fieldsOf rows)).pieces.takeWhile (fun p => (Text.halfRun? 0 p).isNone) =
      (Document.object (fieldsOf rows)).pieces :=
    List.takeWhile_eq_self_iff.mpr fun p hp => by rw [halfRun?_pieces hp]; rfl
  rw [encode, hall, pieces_fieldsOf, Text.legible, List.map_map]
  congr 1
  exact List.map_id _

/-! ## Reading a table -/

/-- Blanks before something else are passed over. -/
theorem skipBlanks_append (blanks : List Char) (hblanks : ∀ b ∈ blanks, isBlank b = true) {x : Char}
    (hx : isBlank x = false) (cs : List Char) (offset : Nat) :
    (Cursor.mk (blanks ++ x :: cs) offset).skipBlanks = ⟨x :: cs, offset + blanks.length⟩ := by
  have hfront : (blanks ++ x :: cs).takeWhile isBlank = blanks := by
    rw [List.takeWhile_append_of_pos hblanks, List.takeWhile_cons_of_neg (by simp [hx]), List.append_nil]
  simp [Cursor.skipBlanks, Cursor.drop, hfront]

theorem skipBlanks_cons {x : Char} (hx : isBlank x = false) (cs : List Char) (offset : Nat) :
    (Cursor.mk (x :: cs) offset).skipBlanks = ⟨x :: cs, offset⟩ :=
  skipBlanks_append [] (by simp) hx cs offset

theorem pointsOf_injective {s t : String} (h : Text.pointsOf s = Text.pointsOf t) : s = t :=
  String.toList_inj.mp ((List.map_inj_right fun _ _ => Point.char.inj).mp h)

/-- A row with a new key comes last. -/
theorem insert_fieldsOf {rows : List (String × String)} {k : String} (h : k ∉ Table.keys rows) (v : String) :
    Table.insert (fieldsOf rows) (Text.pointsOf k) (.text (Text.pointsOf v)) = fieldsOf (rows ++ [(k, v)]) := by
  induction rows with
  | nil => rfl
  | cons r rows ih =>
    simp only [Table.keys, List.map_cons, List.mem_cons, not_or] at h
    have hne : Text.pointsOf r.1 ≠ Text.pointsOf k := fun heq => h.1 (pointsOf_injective heq).symm
    have hrest := ih h.2
    simp only [fieldsOf, List.map_cons, List.cons_append] at hrest ⊢
    rw [Table.insert, if_neg hne, hrest]

/-- Goes on behind a field: to the end of the object, or to the next field. -/
def readOn (fuel : Nat) (done : List (List Point × Document)) (c : Cursor) : Except Fault (Document × Cursor) :=
  match c.chars with
  | '}' :: _ => .ok (.object done, c.drop 1)
  | ',' :: _ => readFields fuel done (c.drop 1).skipBlanks
  | _ => .error ⟨.expectingComma, c.offset⟩

/-- Reads one row of a table. -/
theorem readFields_row (k v : String) (tail : List Char) (done : List (List Point × Document))
    (fuel offset : Nat) :
    ∃ offset', readFields (fuel + 2) done ⟨quote k ++ (':' :: ' ' :: quote v ++ tail), offset⟩ =
      readOn (fuel + 1) (Table.insert done (Text.pointsOf k) (.text (Text.pointsOf v)))
        (Cursor.mk tail offset').skipBlanks := by
  obtain ⟨offset₁, hkey⟩ :=
    spells_escaped offset k.toList (':' :: ' ' :: quote v ++ tail) (offset + 1)
  obtain ⟨offset₂, hvalue⟩ :=
    spells_escaped (offset₁ + 2) v.toList tail (offset₁ + 3)
  refine ⟨offset₂, ?_⟩
  have hspace : (Cursor.mk (' ' :: quote v ++ tail) (offset₁ + 1)).skipBlanks = ⟨quote v ++ tail, offset₁ + 2⟩ :=
    skipBlanks_append [' '] (List.all_eq_true.mp rfl) (by decide) _ _
  have hcolon : (Cursor.mk (':' :: ' ' :: quote v ++ tail) offset₁).skipBlanks =
      ⟨':' :: ' ' :: quote v ++ tail, offset₁⟩ :=
    skipBlanks_cons (by decide) _ _
  have hread : readValue (fuel + 1) ⟨quote v ++ tail, offset₁ + 2⟩ =
      .ok (.text (Text.pointsOf v), ⟨tail, offset₂⟩) := by
    simp only [quote, List.cons_append, List.append_assoc, List.nil_append, readValue, hvalue, Except.map]
    rfl
  have hquote : quote k ++ (':' :: ' ' :: quote v ++ tail) =
      '"' :: (k.toList.flatMap escapeChar ++ '"' :: (':' :: ' ' :: quote v ++ tail)) := by
    simp [quote]
  rw [hquote]
  simp only [readFields, hkey, hcolon]
  simp only [List.cons_append, List.head?_cons, ne_eq, not_true, if_false, Cursor.drop, List.drop_succ_cons,
    List.drop_zero] at hspace ⊢
  rw [hspace, hread]
  rfl

/-- Reads the rows of a table up to its end. -/
theorem readFields_rowsText (rows : List (String × String)) (k v : String) (done : List (String × String))
    (fuel offset : Nat) (hkeys : (Table.keys (done ++ (k, v) :: rows)).Nodup) (hfuel : rows.length + 1 < fuel) :
    ∃ offset', readFields fuel (fieldsOf done)
        ⟨quote k ++ (':' :: ' ' :: quote v ++ (rowsText [',', '\n', ' ', ' '] rows ++ ['\n', '}'])), offset⟩ =
      .ok (.object (fieldsOf (done ++ (k, v) :: rows)), ⟨[], offset'⟩) := by
  induction rows generalizing k v done fuel offset with
  | nil =>
    obtain ⟨fuel, rfl⟩ : ∃ n, fuel = n + 2 := ⟨fuel - 2, by simp at hfuel; omega⟩
    obtain ⟨offset₁, h₁⟩ := readFields_row k v ['\n', '}'] (fieldsOf done) fuel offset
    rw [insert_fieldsOf (Table.not_mem_keys_of_nodup hkeys)] at h₁
    exact ⟨_, h₁⟩
  | cons r rows ih =>
    obtain ⟨k', v'⟩ := r
    obtain ⟨fuel, rfl⟩ : ∃ n, fuel = n + 2 := ⟨fuel - 2, by simp at hfuel; omega⟩
    obtain ⟨offset₁, h₁⟩ := readFields_row k v (rowsText [',', '\n', ' ', ' '] ((k', v') :: rows) ++ ['\n', '}'])
      (fieldsOf done) fuel offset
    rw [insert_fieldsOf (Table.not_mem_keys_of_nodup hkeys)] at h₁
    rw [h₁]
    -- behind the comma there are a line break and two blanks, and then the next row
    have hnext : (Cursor.mk ('\n' :: ' ' :: ' ' :: (quote k' ++ (':' :: ' ' :: quote v' ++
        (rowsText [',', '\n', ' ', ' '] rows ++ ['\n', '}'])))) (offset₁ + 1)).skipBlanks =
        ⟨quote k' ++ (':' :: ' ' :: quote v' ++ (rowsText [',', '\n', ' ', ' '] rows ++ ['\n', '}'])),
          offset₁ + 1 + 3⟩ :=
      skipBlanks_append ['\n', ' ', ' '] (List.all_eq_true.mp rfl) (by decide) _ _
    obtain ⟨offset₂, h₂⟩ := ih k' v' (done ++ [(k, v)]) (fuel + 1) (offset₁ + 1 + 3)
      (by rwa [List.append_assoc, List.singleton_append]) (by simp at hfuel; omega)
    refine ⟨offset₂, ?_⟩
    rw [List.append_assoc, List.singleton_append] at h₂
    rw [← h₂, ← hnext]
    simp only [rowsText, List.cons_append, List.nil_append, List.append_assoc]
    rw [skipBlanks_cons (by decide)]
    rfl

theorem length_le_rowsText (front : List Char) (rows : List (String × String)) :
    rows.length ≤ (rowsText front rows).length := by
  induction rows generalizing front with
  | nil => exact Nat.zero_le _
  | cons r rows ih =>
    have := ih [',', '\n', ' ', ' ']
    simp only [rowsText, List.length_append, List.length_cons]
    omega

/-- The text of a table reads as the table. -/
theorem read_tableText {rows : List (String × String)} (hkeys : (Table.keys rows).Nodup) :
    read (tableText rows) = .ok (.object (fieldsOf rows)) := by
  cases rows with
  | nil => rfl
  | cons r rows =>
    obtain ⟨k, v⟩ := r
    let tail := quote k ++ (':' :: ' ' :: quote v ++ (rowsText [',', '\n', ' ', ' '] rows ++ ['\n', '}']))
    have htext : tableText ((k, v) :: rows) = '{' :: '\n' :: ' ' :: ' ' :: tail := by
      simp [tableText, rowsText, tail]
    have hinner : (Cursor.mk ('\n' :: ' ' :: ' ' :: tail) 1).skipBlanks = ⟨tail, 4⟩ :=
      skipBlanks_append ['\n', ' ', ' '] (List.all_eq_true.mp rfl) (by decide) _ _
    have hlength : rows.length ≤ tail.length := by
      have := length_le_rowsText [',', '\n', ' ', ' '] rows
      simp only [tail, List.length_append, List.length_cons]
      omega
    rw [htext]
    generalize hfuel : 2 * ('{' :: '\n' :: ' ' :: ' ' :: tail).length = fuel
    obtain ⟨offset', h⟩ := readFields_rowsText rows k v [] (fuel + 1) 4 hkeys
      (by simp only [List.length_cons] at hfuel; omega)
    have hvalue : readValue (fuel + 2) ⟨'{' :: '\n' :: ' ' :: ' ' :: tail, 0⟩ =
        .ok (.object (fieldsOf ((k, v) :: rows)), ⟨[], offset'⟩) := by
      simp only [readValue, Cursor.drop, List.drop_succ_cons, List.drop_zero, Nat.zero_add, hinner]
      rw [if_neg (by simp [tail, quote])]
      exact h
    rw [read, if_neg (by simp), skipBlanks_cons (by decide), hfuel, hvalue]
    rfl

theorem return_not_mem_tableText (rows : List (String × String)) : '\r' ∉ tableText rows := by
  have hquote (s : String) : '\r' ∉ quote s := by
    simp [quote, return_not_mem_escapeChar]
  have hrows (front : List Char) (hfront : '\r' ∉ front) (rows : List (String × String)) :
      '\r' ∉ rowsText front rows := by
    induction rows generalizing front with
    | nil => simp [rowsText]
    | cons r rows ih => simp [rowsText, hfront, hquote, ih [',', '\n', ' ', ' '] (by decide)]
  cases rows with
  | nil => decide
  | cons r rows => simp [tableText, hrows ['\n', ' ', ' '] (by decide)]

end Document

/-! ## Files -/

namespace Disk

/-- A text without carriage returns has its line breaks as they should be. -/
theorem unifyBreaks_eq_self {cs : List Char} (h : '\r' ∉ cs) : unifyBreaks cs = cs := by
  induction cs with
  | nil => rfl
  | cons c cs ih =>
    simp only [List.mem_cons, not_or] at h
    rw [unifyBreaks, ih h.2, if_neg (Ne.symm h.1)]
    exact fun _ hc => absurd hc.symm h.1

theorem file?_put (d : Disk) (place : List String) (data : FileData) :
    (d.put place data).file? place = some data := by
  have hnone : List.lookup place (d.files.filter (·.1 ≠ place)) = none := by
    rw [List.lookup_eq_none_iff]
    intro p hp
    have hne := (List.mem_filter.mp hp).2
    exact bne_iff_ne.mpr (Ne.symm (of_decide_eq_true hne))
  rw [file?, put, List.lookup_append, hnone]
  simp

/-- The place that a target names for a file. -/
def Target.place? : Target → Option (List String)
  | .file place _ | .vacant place => some place
  | _ => none

/-- Whatever it is, it can be written where a path leads to a place for a file. -/
theorem write_of_place {d : Disk} {path : String} (hnul : hasNul path = false)
    (h : (d.target path).place?.isSome = true) (data : FileData) : ∃ d', d.write path data = .ok d' := by
  rw [write, hnul]
  cases ht : d.target path with
  | file place _ | vacant place => exact ⟨_, rfl⟩
  | folder | fault _ =>
    rw [ht] at h
    cases h

/-- A path leads to the file that was put where it leads. -/
theorem walk_put (d : Disk) (data : FileData) {place : List String} {way : Way} {segs : List String}
    (h : (d.walk way segs).place? = some place) : (d.put place data).walk way segs = .file place data := by
  have hfolder (p : List String) : (d.put place data).hasFolder p = d.hasFolder p := rfl
  have hroot : (d.put place data).root = d.root := rfl
  fun_induction walk d way segs with
  | case1 => cases h
  | case2 way s rest hdot ih => simpa [walk, hdot] using ih h
  | case3 rest hdot ih => simpa [walk, hroot] using ih h
  | case4 rest above hne hdot ih => simpa [walk] using ih h
  | case5 rest hdot ih => simpa [walk] using ih h
  | case6 | case7 | case10 | case12 => cases h
  | case8 s rest hdot hup hshort above here hin ih =>
    have hstep : (d.put place data).walk (.inside above) (s :: rest) = (d.put place data).walk (.inside here) rest := by
      simp only [walk, hdot, hup, hshort, if_false, hfolder, Bool.false_eq_true]
      exact if_pos hin
    rw [hstep, ih h]
  -- the last segment, where the file was or where there was none
  | case9 s rest hdot hup hshort above here hout data' hdata hlast
  | case11 s rest hdot hup hshort above here hout hdata hlast =>
    obtain rfl : here = place := Option.some.inj h
    have hfile := file?_put d here data
    simp only [walk, hdot, hup, hshort, if_false, hfolder, Bool.false_eq_true]
    rw [if_neg hout, hfile]
    simp [hlast, here]

/-- A file that was written is there and holds what was written. -/
theorem write_reads {d d' : Disk} {path : String} {data : FileData} (h : d.write path data = .ok d') :
    d'.doesExist path = .ok true ∧ d'.readData path = .ok data := by
  unfold write at h
  by_cases hnul : hasNul path = true
  · rw [if_pos hnul] at h
    cases h
  rw [if_neg hnul] at h
  obtain ⟨place, hplace, rfl⟩ : ∃ place, (d.target path).place? = some place ∧ d.put place data = d' := by
    cases ht : d.target path with
    | file place _ | vacant place => 
      rw [ht] at h
      exact ⟨place, rfl, Except.ok.inj h⟩
    | folder | fault _ =>
      rw [ht] at h
      cases h
  have htarget : (d.put place data).target path = .file place data := by
    unfold target at hplace ⊢
    split at hplace
    · cases hplace
    · split at hplace
      · cases hplace
      · rename_i hempty hlong
        rw [if_neg hempty, if_neg hlong]
        split at hplace
        · rename_i hroot
          rw [if_pos hroot]
          exact walk_put d data hplace
        · rename_i hroot
          rw [if_neg hroot]
          exact walk_put d data hplace
  simp [doesExist, readData, hnul, htarget]

/-- The file at a path holds a text: the text itself, or its bytes. -/
def HoldsText (d : Disk) (path text : String) : Prop :=
  d.doesExist path = .ok true ∧
    (d.readData path = .ok (.text text) ∨ d.readData path = .ok (.raw (Text.Utf8.encode text)))

theorem holdsText_write {d d' : Disk} {path text : String} (h : d.write path (.text text) = .ok d') :
    d'.HoldsText path text := by
  obtain ⟨hexists, hdata⟩ := write_reads h
  exact ⟨hexists, .inl hdata⟩

/-- A text without carriage returns is read as it is, although every line break is read as LF. -/
theorem HoldsText.readText_eq {d : Disk} {path text : String} (h : d.HoldsText path text) (hcr : '\r' ∉ text.toList) :
    d.readText path = .ok text := by
  have hbreaks : String.ofList (unifyBreaks text.toList) = text := by
    rw [unifyBreaks_eq_self hcr, String.ofList_toList]
  rcases h.2 with hdata | hdata
  · rw [readText, hdata]
    exact congrArg Except.ok hbreaks
  · simp only [readText, hdata, bind, Except.bind, Text.Utf8.decode_encode]
    exact congrArg Except.ok hbreaks

/-- The file at a path is a snapshot of these rows. -/
def Holds (d : Disk) (path : String) (rows : List (String × String)) : Prop :=
  d.doesExist path = .ok true ∧
    ∃ text, d.readText path = .ok text ∧ Document.read text.toList = .ok (.object (Document.fieldsOf rows))

/-- A file that holds the text of a table is a snapshot of it. -/
theorem HoldsText.holds {d : Disk} {path : String} {rows : List (String × String)}
    (h : d.HoldsText path (String.ofList (Document.tableText rows))) (hkeys : (Table.keys rows).Nodup) :
    d.Holds path rows := by
  refine ⟨h.1, _, h.readText_eq ?_, ?_⟩
  · rw [String.toList_ofList]
    exact Document.return_not_mem_tableText rows
  · rw [String.toList_ofList, Document.read_tableText hkeys]

/-- A table of texts that was written can be read. -/
theorem holds_write {d d' : Disk} {path : String} {rows : List (String × String)}
    (hkeys : (Table.keys rows).Nodup)
    (h : d.write path (.text (Document.encode (Document.object (Document.fieldsOf rows)).pieces)) = .ok d') :
    d'.Holds path rows := by
  rw [Document.encode_fieldsOf] at h
  exact (holdsText_write h).holds hkeys

end Disk

end LazyModules
