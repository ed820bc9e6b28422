/-!
# String literals

Inside its double quotes a string literal writes LF, TAB, CR, the quote, the backslash and NUL as
`\n`, `\t`, `\r`, `\"`, `\\` and `\0`. Reading knows these six escapes and no others. Writing uses the four
for the backslash, the quote, LF and TAB, and leaves all other characters as they are.
-/
namespace LazyModules.Literal

/-- The character that a backslash and `c` stand for. -/
def escape? (c : Char) : Option Char :=
  if c = 'n' then some '\n'
  else if c = 't' then some '\t'
  else if c = 'r' then some '\r'
  else if c = '"' then some '"'
  else if c = '\\' then some '\\'
  else if c = '0' then some '\x00'
  else none

/-- Reads what stands between the quotes; fails with the character of the first unknown escape. -/
def unescape : List Char → Except Char (List Char)
  | [] => .ok []
  | '\\' :: c :: cs =>
    match escape? c with
    | some x => (unescape cs).map (x :: ·)
    | none => .error c
  | c :: cs => (unescape cs).map (c :: ·)

def writeChar (c : Char) : List Char :=
  if c = '\\' then ['\\', '\\']
  else if c = '"' then ['\\', '"']
  else if c = '\n' then ['\\', 'n']
  else if c = '\t' then ['\\', 't']
  else [c]

/-- A text in the notation of the language, with its quotes. -/
def write (cs : List Char) : List Char := '"' :: cs.flatMap writeChar ++ ['"']

/-- Where a string literal ends: how many characters stand up to and with the closing quote, given what
comes after the opening one. A line may not end inside, and a backslash takes the next character along. -/
def tailLength : List Char → Option Nat
  | [] => none
  | '"' :: _ => some 1
  | '\\' :: c :: cs =>
    if '\n' ≤ c && c ≤ '\r' then none else (tailLength cs).map (· + 2)
  | c :: cs =>
    if c = '\\' || c = '\n' || c = '\r' then none else (tailLength cs).map (· + 1)

end LazyModules.Literal
