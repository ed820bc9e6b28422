/-!
# Tokens

A program text is read as a sequence of tokens: names, literals, strings and marks, each with the offset
where it starts. The characters `(`, `[` and `-` each have two marks: one that continues the phrase
before it, one that opens a new phrase.
-/
namespace LazyModules

/-- A constant of the language. Literal numbers have no sign. -/
inductive Constant where
  | nil
  | flag (b : Bool)
  | int (n : Nat)
  | float (x : Float)
  | text (s : String)

/-- Punctuation, operators and keywords. -/
inductive Mark where
  | arrow
  | equal
  | unequal
  | atMost
  | atLeast
  | both
  | either
  | closeParen
  | closeBracket
  | openBrace
  | closeBrace
  | comma
  | dot
  | colon
  | assign
  | plus
  | star
  | slash
  | percent
  | less
  | greater
  | bang
  /-- `(` that begins a group or a parameter list -/
  | openParen
  /-- `[` that begins a list -/
  | openBracket
  /-- `-` before an operand -/
  | negate
  /-- `(` that applies the function before it -/
  | apply
  /-- `[` that indexes the container before it -/
  | index
  /-- `-` between two operands -/
  | minus
  | ifWord
  | thenWord
  | elseWord
  deriving DecidableEq, Repr

def Mark.text : Mark → String
  | .arrow => "=>"
  | .equal => "=="
  | .unequal => "!="
  | .atMost => "<="
  | .atLeast => ">="
  | .both => "&&"
  | .either => "||"
  | .closeParen => ")"
  | .closeBracket => "]"
  | .openBrace => "\x7b"
  | .closeBrace => "\x7d"
  | .comma => ","
  | .dot => "."
  | .colon => ":"
  | .assign => "="
  | .plus => "+"
  | .star => "*"
  | .slash => "/"
  | .percent => "%"
  | .less => "<"
  | .greater => ">"
  | .bang => "!"
  | .openParen => "("
  | .openBracket => "["
  | .negate => "-"
  | .apply => "("
  | .index => "["
  | .minus => "-"
  | .ifWord => "if"
  | .thenWord => "then"
  | .elseWord => "else"

/-- The name of a mark in the grammar, which tells the two readings of `(`, `[` and `-` apart. -/
def Mark.kind : Mark → String
  | .apply => "apply"
  | .index => "index"
  | .negate => "negate"
  | .ifWord => "IF"
  | .thenWord => "THEN"
  | .elseWord => "ELSE"
  | m => m.text

/-- What a token says. A literal is a number, a flag or nil; strings stand apart from them. -/
inductive Lexeme where
  | name (s : String)
  | literal (c : Constant)
  | string (s : String)
  | mark (m : Mark)

def Lexeme.kind : Lexeme → String
  | .name _ => "name"
  | .literal _ => "literal"
  | .string _ => "string"
  | .mark m => m.kind

/-- A lexeme that may end an operand. -/
def Lexeme.endsValue : Lexeme → Bool
  | .name _ | .literal _ | .string _ => true
  | .mark m => m = .closeParen || m = .closeBracket || m = .closeBrace

/-- A lexeme and the offset where it starts. -/
structure Token where
  lexeme : Lexeme
  start : Nat

end LazyModules
