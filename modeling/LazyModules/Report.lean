import LazyModules.Report.Locate
import LazyModules.Accident
import LazyModules.SemanticError

/-!
# Reports

A report tells the user what went wrong and where, one diagnostic for each fatal problem, and remembers
of which kind each was. The place is shown by its line of the source text, with the spot highlighted.
When verbose, a report also tells what is going on.
-/
namespace LazyModules

inductive DiagnosticKind where
  | internal
  | syntaxError
  | undefinedName
  | located
  | message
  deriving DecidableEq, Repr

def DiagnosticKind.name : DiagnosticKind → String
  | .internal => "internal"
  | .syntaxError => "syntax"
  | .undefinedName => "semantic-named"
  | .located => "semantic-generic"
  | .message => "semantic-message"

/-- A problem to tell: of which module, of what kind, with which message, at what place of the text and
how many characters wide if the place is known, and what else there is to say. -/
structure Diagnostic where
  address : String
  kind : DiagnosticKind
  message : String
  position : Option Int
  width : Nat
  extra : List String

structure Report where
  verbose : Bool
  sources : Table String
  kinds : List DiagnosticKind
  printed : String

namespace Report

def empty (verbose : Bool) : Report := ⟨verbose, [], [], ""⟩

/-- Texts in which later diagnostics are shown. -/
def attach (r : Report) (sources : Table String) : Report := { r with sources := sources }

def ok (r : Report) : Bool := r.kinds.isEmpty

def sick (r : Report) : Bool := !r.ok

def print (r : Report) (line : String) : Report := { r with printed := r.printed ++ line ++ "\n" }

/-- Tells what is going on, if the report is verbose. -/
def info (r : Report) (words : List String) : Report :=
  if r.verbose then r.print (String.intercalate " " words) else r

def source (r : Report) (address : String) : List Char :=
  ((Table.find? r.sources address).getD "").toList

/-! ## Rendering -/

def syntaxHighlight : List Char := "\x1b[41m".toList

def semanticHighlight : List Char := "\x1b[43m".toList

def plain : List Char := "\x1b[0m".toList

/-- A line with the characters from index `i` up to index `j` highlighted; `filler` stands for them if
there are none. -/
def mark (highlight filler line : List Char) (i j : Int) : List Char :=
  let spot := Text.slice line i j
  Text.slice line 0 i ++ highlight ++ (if spot.isEmpty then filler else spot) ++ plain ++
    Text.sliceFrom line j

/-- The text of a diagnostic about a module with the given source. -/
def render (source : List Char) (d : Diagnostic) : String :=
  let heading := if d.kind = .syntaxError then d.message else "Error: " ++ d.message
  match d.position with
  | none => String.intercalate "\n" (heading :: d.address :: d.extra)
  | some p =>
    let (row, col) := Text.rowCol source p
    let line := Text.trimEnd (fun c => c = '\r' || c = '\n') (Text.lineOfRow source row)
    let marked :=
      if d.kind = .syntaxError then mark syntaxHighlight [' '] line (col - 1) col
      else mark semanticHighlight [] line (col - 1) (col - 1 + d.width)
    let label := toString row ++ ":" ++ toString col ++ ": "
    let padding := String.ofList (List.replicate (label.length + col - 1).toNat ' ')
    String.intercalate "\n"
      (heading :: d.address :: (label ++ String.ofList marked) :: d.extra.map (padding ++ ·))

def emit (r : Report) (d : Diagnostic) : Report :=
  { r with kinds := r.kinds ++ [d.kind] }.print (render (r.source d.address) d)

/-! ## Problems -/

/-- A problem of some kind with a term of the source text. -/
def locatedError (r : Report) (kind : DiagnosticKind) (address : String) (c : Complaint) : Report :=
  let position := Locate.findTerm (r.source address) c.term.toList c.near
  r.emit ⟨address, kind, c.message, position, c.term.length, c.extra⟩

def semanticError (r : Report) (address : String) (c : Complaint) : Report :=
  r.locatedError .located address c

/-- A name that nothing in sight defines. -/
def undefinedName (r : Report) (address name : String) (available : List String) : Report :=
  r.locatedError .undefinedName address ⟨"Name not found: " ++ name, name, available, none⟩

/-- A text that could not be read on; what was unread of the statement in progress, and in all. -/
def syntaxError (r : Report) (address rest : String) (shortest : Option String) : Report :=
  let position := Locate.syntaxOffset (r.source address) rest.toList (shortest.map String.toList)
  r.emit ⟨address, .syntaxError, "Syntax error.", some position, 1, []⟩

def plainError (r : Report) (address message : String) (extra : List String) : Report :=
  r.emit ⟨address, .message, message, none, 0, extra⟩

/-- A text with a piece that has no meaning. The trace of where that was noticed is for verbose reports. -/
def internalError (r : Report) (address message trace : String) : Report :=
  let shown := String.ofList (Text.trimEnd Text.isBlank trace.toList)
  r.emit ⟨address, .internal, message, none, 0, if r.verbose && !trace.isEmpty then [shown] else []⟩

def traceHeading : String := "Traceback (most recent call last):"

/-- An accident. A verbose report gives its class, after a trace if the accident has `happened` and is not
just talked about. -/
def unexpected (r : Report) (a : Accident) (happened : Bool) : Report :=
  let line := if a.message.isEmpty then a.kind else a.kind ++ ": " ++ a.message
  if r.verbose then
    r.print (String.ofList (Text.trimEnd Text.isBlank
      (if happened then traceHeading ++ "\n" ++ line else line).toList))
  else r.print ("Error: " ++ if a.message.isEmpty then a.kind else a.message)

def blame (r : Report) (c : SemanticCause) (address : String) : Except Accident Report :=
  match c with
  | .undefinedName name available => .ok (r.undefinedName address name available)
  | .grievance message extra => .ok (r.plainError address message extra)
  | .unclassified _ => .error .unblamable
  | .circular name =>
    if (name.getD "").isEmpty then .ok (r.plainError address c.message c.extra)
    else .ok (r.semanticError address ⟨c.message, c.term, c.extra, c.near⟩)
  | .complaint _ | .cyclicImport _ _ _ =>
    .ok (r.semanticError address ⟨c.message, c.term, c.extra, c.near⟩)

end Report

end LazyModules
