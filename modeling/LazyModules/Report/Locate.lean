import LazyModules.Text.Blank
import LazyModules.Text.Word
import LazyModules.Text.Lines
import LazyModules.Text.Split

/-!
# Finding the spot

Where in a source text a report should point.

* `findTerm`: an offset where a term is expected wins if the term is there; otherwise the first
  occurrence as a whole word.
* `strayCloser`: the first closing bracket of a line that matches no opening one.
* `syntaxOffset`: where reading stopped, unless something was opened and never closed: then the last line
  that shows something.
-/
namespace LazyModules.Locate

/-! ## Terms -/

/-- Whether a word could go on across the border between two characters, of which either may lack. -/
def joins (a b : Option Char) : Bool := a.any Text.isWord && b.any Text.isWord

/-- Whether `term` stands at the front of `cs` as a whole word, with `before` in front of it. -/
def standsHere (term : List Char) (before : Option Char) (cs : List Char) : Bool :=
  term.isPrefixOf cs && !joins before term.head? && !joins term.getLast? (cs.drop term.length).head?

/-- The offset of the first whole-word occurrence in `cs`, which begins at offset `i` after `before`. -/
def firstWhole (term : List Char) : (before : Option Char) → List Char → (i : Nat) → Option Nat
  | _, [], _ => none
  | before, c :: cs, i =>
    if standsHere term before (c :: cs) then some i else firstWhole term (some c) cs (i + 1)

/-- Where a term shows up. A negative `near` counts from the end of the text and is answered as given. -/
def findTerm (text term : List Char) (near : Option Int) : Option Int :=
  if term.isEmpty || term.contains '\n' then none else
  let whole : Option Int := (firstWhole term none text 0).map Int.ofNat
  match near with
  | none => whole
  | some n => if term.isPrefixOf (Text.sliceFrom text n) then some n else whole

/-! ## Brackets -/

def closerOf (c : Char) : Option Char :=
  if c = '(' then some ')' else if c = '[' then some ']' else if c = '{' then some '}' else none

def isOpener (c : Char) : Bool := (closerOf c).isSome

def isCloser (c : Char) : Bool := c = ')' || c = ']' || c = '}'

/-- Where a scan of a line is with respect to string literals. -/
inductive Quoting where
  | outside
  | inside
  | escaped
  deriving DecidableEq, Repr

/-- The index of the first stray closing bracket of `cs`, which begins at index `i`, inside brackets to be
closed by `pending`. -/
def strayFrom : Quoting → (pending : List Char) → List Char → (i : Nat) → Option Nat
  | _, _, [], _ => none
  | .escaped, pending, _ :: cs, i => strayFrom .inside pending cs (i + 1)
  | .inside, pending, c :: cs, i =>
    let q : Quoting := if c = '\\' then .escaped else if c = '"' then .outside else .inside
    strayFrom q pending cs (i + 1)
  | .outside, pending, c :: cs, i =>
    if c = '"' then strayFrom .inside pending cs (i + 1)
    else match closerOf c with
      | some closer => strayFrom .outside (closer :: pending) cs (i + 1)
      | none =>
        if isCloser c then
          match pending with
          | p :: ps => if p = c then strayFrom .outside ps cs (i + 1) else some i
          | [] => some i
        else strayFrom .outside pending cs (i + 1)

/-- The index of the first closing bracket in a line that matches no opening one. -/
def strayCloser (line : List Char) : Option Nat := strayFrom .outside [] line 0

/-! ## Syntax errors -/

/-- How many double quotes have no backslash right before them. -/
def countQuotes : (before : Option Char) → List Char → Nat
  | _, [] => 0
  | before, c :: cs =>
    (if c = '"' && before ≠ some '\\' then 1 else 0) + countQuotes (some c) cs

/-- Whether the quotes of a text do not pair up. -/
def unterminated (rest : List Char) : Bool := countQuotes none rest % 2 = 1

/-- Whether more brackets open than close. -/
def unclosed (rest : List Char) : Bool := rest.countP isCloser < rest.countP isOpener

/-- The last line that shows something, with the offset where it begins, given that the first of
`lines` begins at `start`. -/
def lastShown : List (List Char) → (start : Nat) → Option (Nat × List Char)
  | [], _ => none
  | l :: ls, start =>
    match lastShown ls (start + l.length + 1) with
    | some found => some found
    | none => if Text.isBlankRun l then none else some (start, l)

/-- The place of a line that is blamed for something unclosed. -/
def blamedPlace (line : List Char) (unterminated : Bool) : Nat :=
  match strayCloser line with
  | some i => if unterminated then (Text.trimEnd (fun c => c = ' ' || c = '\t') line).length else i
  | none => (Text.trimEnd (fun c => c = ' ' || c = '\t') line).length

/-- The offset that a syntax error is reported at. `rest` is what was unread of the statement in progress,
`shortest` what was unread in all; an empty `shortest` does not count. -/
def syntaxOffset (text rest : List Char) (shortest : Option (List Char)) : Int :=
  let unread := match shortest with
    | none | some [] => rest
    | some s => s
  let position := (text.length : Int) - unread.length
  if unclosed rest || unterminated rest then
    match lastShown (Text.split '\n' text) 0 with
    | none => position
    | some (start, line) => (start : Int) + blamedPlace line (unterminated rest)
  else position

end LazyModules.Locate
