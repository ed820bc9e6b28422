/-!
# Lines, rows and columns

A line ends with CR LF, CR or LF. Offsets count characters from zero; rows and columns count from one.
An offset past the end belongs to the last line. An offset before the text has row 0 and a column that
counts back from the end.
-/
namespace LazyModules.Text

/-- Where each line after the first begins, given that the text goes on at offset `i`. -/
def laterStarts : List Char → Nat → List Nat
  | [], _ => []
  | '\r' :: '\n' :: cs, i => (i + 2) :: laterStarts cs (i + 2)
  | c :: cs, i =>
    if c = '\r' || c = '\n' then (i + 1) :: laterStarts cs (i + 1) else laterStarts cs (i + 1)

def lineStarts (cs : List Char) : List Nat := 0 :: laterStarts cs 0

/-- Row and column of an offset, both counted from one. -/
def rowCol (cs : List Char) (offset : Int) : Int × Int :=
  match (lineStarts cs).filter fun (s : Nat) => (s : Int) ≤ offset with
  | [] => (0, offset - cs.length + 1)
  | s :: ss => (ss.length + 1, offset - ((s :: ss).getLastD 0 : Nat) + 1)

/-- The line of a row with its line break. Rows before the first read as the first. -/
def lineOfRow (cs : List Char) (row : Int) : List Char :=
  let starts := (lineStarts cs).drop (row.toNat - 1)
  match starts with
  | [] => []
  | [s] => cs.drop s
  | s :: e :: _ => (cs.take e).drop s

/-- An index into a run of `n` characters: a negative one counts from the end, and all are kept in range. -/
def clampIndex (n : Nat) (i : Int) : Nat :=
  if i < 0 then (i + n).toNat else min i.toNat n

/-- The characters from index `i` up to index `j`, both read by `clampIndex`. -/
def slice (cs : List Char) (i j : Int) : List Char :=
  (cs.take (clampIndex cs.length j)).drop (clampIndex cs.length i)

def sliceFrom (cs : List Char) (i : Int) : List Char := cs.drop (clampIndex cs.length i)

end LazyModules.Text
