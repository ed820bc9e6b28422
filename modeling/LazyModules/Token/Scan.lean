import LazyModules.Token.Numeral
import LazyModules.Token.Literal
import LazyModules.Text.Blank

/-!
# Scanning

`scan` cuts a text into pieces, each the longest that any pattern matches: blanks, comments, numerals,
strings, words, punctuation. Blanks and comments are dropped; every other piece becomes a token. The
scan ends with the text, at a place where no pattern matches, or at a piece that has no meaning (an
unknown escape, an integer of too many digits).

The layout rule is decided here: `(`, `[` and `-` continue the phrase before them when they follow a value
on a line that shows something before them, and open a new phrase otherwise.
-/
namespace LazyModules.Scan

/-- White space between tokens. -/
def isSpace (c : Char) : Bool := ('\t' ≤ c && c ≤ '\r') || c = ' '

/-- The characters that end a comment. -/
def isLineEnd (c : Char) : Bool := '\n' ≤ c && c ≤ '\r'

def isLetter (c : Char) : Bool := ('a' ≤ c && c ≤ 'z') || ('A' ≤ c && c ≤ 'Z')

def startsWord (c : Char) : Bool := isLetter c || c = '_'

def continuesWord (c : Char) : Bool := startsWord c || Numeral.isDigit c

/-- The three characters whose reading depends on the layout. -/
inductive Opener where
  | paren
  | bracket
  | dash
  deriving DecidableEq, Repr

/-- The mark of an opener that continues a phrase. -/
def Opener.continuing : Opener → Mark
  | .paren => .apply
  | .bracket => .index
  | .dash => .minus

/-- The mark of an opener that begins a phrase. -/
def Opener.opening : Opener → Mark
  | .paren => .openParen
  | .bracket => .openBracket
  | .dash => .negate

/-- The kinds of pieces that a text is cut into. -/
inductive Piece where
  | blank
  | comment
  | number
  | string
  | word
  | mark (m : Mark)
  | opener (o : Opener)
  deriving DecidableEq, Repr

/-- Punctuation of two characters. -/
def pair? (c d : Char) : Option Mark :=
  match c, d with
  | '=', '>' => some .arrow
  | '=', '=' => some .equal
  | '!', '=' => some .unequal
  | '<', '=' => some .atMost
  | '>', '=' => some .atLeast
  | '&', '&' => some .both
  | '|', '|' => some .either
  | _, _ => none

/-- Punctuation of one character. -/
def single? (c : Char) : Option Piece :=
  match c with
  | ')' => some (.mark .closeParen)
  | ']' => some (.mark .closeBracket)
  | '{' => some (.mark .openBrace)
  | '}' => some (.mark .closeBrace)
  | ',' => some (.mark .comma)
  | '.' => some (.mark .dot)
  | ':' => some (.mark .colon)
  | '=' => some (.mark .assign)
  | '+' => some (.mark .plus)
  | '*' => some (.mark .star)
  | '/' => some (.mark .slash)
  | '%' => some (.mark .percent)
  | '<' => some (.mark .less)
  | '>' => some (.mark .greater)
  | '!' => some (.mark .bang)
  | '(' => some (.opener .paren)
  | '[' => some (.opener .bracket)
  | '-' => some (.opener .dash)
  | _ => none

/-- Punctuation at the front, two characters where they make a pair. -/
def punctuation? (c : Char) (cs : List Char) : Option (Piece × Nat) :=
  match cs with
  | [] => (single? c).map (·, 1)
  | d :: _ =>
    match pair? c d with
    | some m => some (.mark m, 2)
    | none => (single? c).map (·, 1)

/-- The piece at the front of `c :: cs` with its length, which is positive; none if no pattern matches. -/
def piece? (c : Char) (cs : List Char) : Option (Piece × Nat) :=
  if isSpace c then some (.blank, (cs.takeWhile isSpace).length + 1)
  else if c = '#' then some (.comment, (cs.takeWhile (!isLineEnd ·)).length + 1)
  else if Numeral.isDigit c then some (.number, (Numeral.Parts.ofChars (c :: cs)).length)
  else if c = '"' then (Literal.tailLength cs).map fun n => (.string, n + 1)
  else if startsWord c then some (.word, (cs.takeWhile continuesWord).length + 1)
  else punctuation? c cs

/-- What the scan remembers: the offset it has come to, the last token, and whether the line shows
nothing so far. -/
structure Layout where
  offset : Nat
  previous : Option Lexeme
  fresh : Bool

def Layout.start : Layout := ⟨0, none, true⟩

/-- Whether a line that shows nothing, as far as `fresh` says, still shows nothing after `cs`. -/
def freshAfter (fresh : Bool) (cs : List Char) : Bool :=
  cs.foldl (fun b c => c = '\n' || (b && Text.isBlank c)) fresh

/-- The mark of an opener at this place. -/
def Layout.opener (l : Layout) (o : Opener) : Mark :=
  if l.previous.any Lexeme.endsValue && !l.fresh then o.continuing else o.opening

/-- Why a piece has no meaning. -/
inductive Fault where
  | unknownEscape (c : Char)
  | tooManyDigits (count : Nat)
  deriving DecidableEq, Repr

def Fault.message : Fault → String
  | .unknownEscape c => "Unknown escape sequence \\" ++ String.singleton c
  | .tooManyDigits n =>
    "Exceeds the limit (4300 digits) for integer string conversion: value has " ++ toString n ++
      " digits; use sys.set_int_max_str_digits() to increase the limit"

/-- What a word says: a keyword, a constant or a name. -/
def wordLexeme (w : String) : Lexeme :=
  if w = "if" then .mark .ifWord
  else if w = "then" then .mark .thenWord
  else if w = "else" then .mark .elseWord
  else if w = "true" then .literal (.flag true)
  else if w = "false" then .literal (.flag false)
  else if w = "nil" then .literal .nil
  else .name w

/-- What a piece says; nothing for blanks and comments. -/
def lexeme? (l : Layout) (p : Piece) (cs : List Char) : Except Fault (Option Lexeme) :=
  match p with
  | .blank => .ok none
  | .comment => .ok none
  | .number =>
    match (Numeral.Parts.ofChars cs).value with
    | some c => .ok (some (.literal c))
    | none => .error (.tooManyDigits cs.length)
  | .string =>
    match Literal.unescape (cs.drop 1).dropLast with
    | .ok s => .ok (some (.string (String.ofList s)))
    | .error c => .error (.unknownEscape c)
  | .word => .ok (some (wordLexeme (String.ofList cs)))
  | .mark m => .ok (some (.mark m))
  | .opener o => .ok (some (.mark (l.opener o)))

/-- Why a scan ended. -/
inductive Stop where
  | ended
  | blocked (offset : Nat)
  | fault (f : Fault)

/-- The tokens of a text up to where the scan ended. -/
structure Result where
  tokens : List Token
  stop : Stop

/-- The layout after the characters `cs` of a piece. -/
def Layout.advance (l : Layout) (said : Option Lexeme) (cs : List Char) : Layout :=
  ⟨l.offset + cs.length, said <|> l.previous, freshAfter l.fresh cs⟩

/-- Scans from the place that `l` describes; the next `skip` characters belong to the last piece. -/
def scanFrom : List Char → (skip : Nat) → Layout → Result
  | [], _, _ => ⟨[], .ended⟩
  | _ :: cs, skip + 1, l => scanFrom cs skip l
  | c :: cs, 0, l =>
    match piece? c cs with
    | none => ⟨[], .blocked l.offset⟩
    | some (p, n) =>
      let w := (c :: cs).take n
      match lexeme? l p w with
      | .error f => ⟨[], .fault f⟩
      | .ok said =>
        let rest := scanFrom cs (n - 1) (l.advance said w)
        match said with
        | none => rest
        | some x => { rest with tokens := ⟨x, l.offset⟩ :: rest.tokens }

def scan (text : List Char) : Result := scanFrom text 0 .start

end LazyModules.Scan
