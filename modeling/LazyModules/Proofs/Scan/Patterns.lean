import Mathlib.Computability.Language
import LazyModules.Token.Scan

/-!
# Patterns

A pattern is a regular expression over classes of characters, and what it matches is a language. The rules of the
scan are eight patterns, each with what is to be done with a piece that it matches. Nothing here depends on how a text is
cut up: the classes are given by their code points, and punctuation by its spelling.

**Results.** `mem_run`, `mem_numeral`, `mem_quoted`: the texts of the patterns that repeat something. `Longest.unique`: there
is one longest match at most. `Matched.ne_nil`: no rule matches the empty text.
-/
namespace LazyModules

/-- A regular expression over classes of characters. -/
inductive Pattern where
  /-- one character of a class -/
  | one (q : Char → Bool)
  | seq (a b : Pattern)
  | alt (a b : Pattern)
  /-- `a` or nothing -/
  | maybe (a : Pattern)
  /-- any number of times `a`, also none -/
  | many (a : Pattern)

namespace Pattern

open Computability

def language : Pattern → Language Char
  | one q => {w | ∃ c, w = [c] ∧ q c = true}
  | seq a b => a.language * b.language
  | alt a b => a.language + b.language
  | maybe a => 1 + a.language
  | many a => a.language∗

/-! ## Classes and common forms -/

/-- The characters in some ranges. -/
def within (ranges : List (Char × Char)) (c : Char) : Bool := ranges.any fun r => r.1 ≤ c && c ≤ r.2

/-- White space: TAB, LF, VT, FF, CR and the blank. -/
def space : Char → Bool := within [('\t', '\r'), (' ', ' ')]

/-- Any character but LF, VT, FF and CR. -/
def inLine (c : Char) : Bool := !within [('\n', '\r')] c

def digit : Char → Bool := within [('0', '9')]

def wordStart : Char → Bool := within [('A', 'Z'), ('a', 'z'), ('_', '_')]

def wordPart : Char → Bool := within [('A', 'Z'), ('a', 'z'), ('0', '9'), ('_', '_')]

def char (c : Char) : Pattern := one (· = c)

def oneOf (cs : List Char) : Pattern := one (cs.contains ·)

def noneOf (cs : List Char) : Pattern := one (!cs.contains ·)

/-- A character of one class, and then any number of characters of another. -/
def run (q p : Char → Bool) : Pattern := (one q).seq (one p).many

def pair (c d : Char) : Pattern := (char c).seq (char d)

/-! ## What is scanned -/

/-- White space, `\s+`. -/
def blanks : Pattern := run space space

/-- A comment to the end of its line, `#.*`. -/
def comment : Pattern := run (· = '#') inLine

/-- One digit or more, `\d+`. -/
def digits : Pattern := run digit digit

/-- A point and digits, `\.\d+`. -/
def fraction : Pattern := (char '.').seq digits

/-- The letter, perhaps a sign, and digits, `[eE][+\-]?\d+`. -/
def exponent : Pattern := (oneOf ['e', 'E']).seq ((oneOf ['+', '-']).maybe.seq digits)

/-- A numeral, `\d+(\.\d+)?([eE][+\-]?\d+)?`. -/
def numeral : Pattern := digits.seq (fraction.maybe.seq exponent.maybe)

/-- What a string literal is made of, `[^"\\\n\r]|\\.`: a character as it is, or a backslash and a character. -/
def quotable : Pattern := (noneOf ['"', '\\', '\n', '\r']).alt ((char '\\').seq (one inLine))

/-- A string literal, `"([^"\\\n\r]|\\.)*"`. -/
def quoted : Pattern := (char '"').seq (quotable.many.seq (char '"'))

/-- A word, `[\l_]\w*`. -/
def word : Pattern := run wordStart wordPart

/-- Punctuation of two characters, `=>|==|!=|<=|>=|&&|\|\|`. -/
def pairs : Pattern :=
  (pair '=' '>').alt <| (pair '=' '=').alt <| (pair '!' '=').alt <| (pair '<' '=').alt <| (pair '>' '=').alt <|
    (pair '&' '&').alt (pair '|' '|')

/-- Punctuation of one character, `[)\]{},.:=+*/%<>!]`. -/
def singles : Pattern := oneOf [')', ']', '{', '}', ',', '.', ':', '=', '+', '*', '/', '%', '<', '>', '!']

/-- The characters whose reading depends on the layout, `[(\[\-]`. -/
def openers : Pattern := oneOf ['(', '[', '-']

end Pattern

namespace Scan

inductive Action where
  | ignore
  | number
  | string
  | word
  | punctuation
  | opener
  deriving DecidableEq, Repr

/-- A pattern, and what is done with a piece that it matches. -/
structure Rule where
  pattern : Pattern
  action : Action

def rules : List Rule :=
  [⟨.blanks, .ignore⟩, ⟨.comment, .ignore⟩, ⟨.numeral, .number⟩, ⟨.quoted, .string⟩, ⟨.word, .word⟩,
   ⟨.pairs, .punctuation⟩, ⟨.singles, .punctuation⟩, ⟨.openers, .opener⟩]

/-- A rule matches `w`, and calls for the action `a`. -/
def Matched (a : Action) (w : List Char) : Prop := ∃ r ∈ rules, r.action = a ∧ w ∈ r.pattern.language

/-- Of all that a rule matches at the front of `rest`, `w` is the longest, and the action of its rule is `a`. The last part
also says that there is no choice of actions: every rule that matches at the front calls for this one. -/
structure Longest (rest w : List Char) (a : Action) : Prop where
  front : w <+: rest
  matched : Matched a w
  longest : ∀ b v, Matched b v → v <+: rest → v.length ≤ w.length ∧ b = a

def punctuationMarks : List Mark :=
  [.arrow, .equal, .unequal, .atMost, .atLeast, .both, .either, .closeParen, .closeBracket, .openBrace, .closeBrace, .comma,
   .dot, .colon, .assign, .plus, .star, .slash, .percent, .less, .greater, .bang]

/-- What an action makes of the characters `w` at the place `l`. -/
def Action.read (l : Layout) (w : List Char) : Action → Except Fault (Option Lexeme)
  | .ignore => .ok none
  | .number => lexeme? l .number w
  | .string => lexeme? l .string w
  | .word => .ok (some (wordLexeme (String.ofList w)))
  | .punctuation => .ok ((punctuationMarks.find? (·.text.toList = w)).map .mark)
  | .opener => .ok (([.paren, .bracket, .dash].find? (·.opening.text.toList = w)).map fun o => .mark (l.opener o))

end Scan

/-! ## The texts of patterns -/

namespace Pattern

variable {a b : Pattern} {p q : Char → Bool} {c d : Char} {w : List Char}

theorem mem_one : w ∈ (one q).language ↔ ∃ c, w = [c] ∧ q c = true := Iff.rfl

theorem mem_seq : w ∈ (a.seq b).language ↔ ∃ u ∈ a.language, ∃ v ∈ b.language, u ++ v = w := Language.mem_mul

theorem mem_alt : w ∈ (a.alt b).language ↔ w ∈ a.language ∨ w ∈ b.language := Iff.rfl

theorem mem_maybe : w ∈ a.maybe.language ↔ w = [] ∨ w ∈ a.language := Iff.rfl

theorem mem_many : w ∈ a.many.language ↔ ∃ ws : List (List Char), w = ws.flatten ∧ ∀ v ∈ ws, v ∈ a.language := Iff.rfl

theorem mem_char : w ∈ (char c).language ↔ w = [c] := by
  simp [char, mem_one]

theorem mem_oneOf {cs : List Char} : w ∈ (oneOf cs).language ↔ ∃ c ∈ cs, w = [c] := by
  simp [oneOf, mem_one, and_comm]

theorem mem_noneOf {cs : List Char} : w ∈ (noneOf cs).language ↔ ∃ c, w = [c] ∧ c ∉ cs := by
  simp [noneOf, mem_one]

theorem mem_pair : w ∈ (pair c d).language ↔ w = [c, d] := by
  simp [pair, mem_seq, mem_char, eq_comm]

theorem mem_many_one : w ∈ (one q).many.language ↔ ∀ c ∈ w, q c = true := by
  rw [mem_many]
  constructor
  · rintro ⟨ws, rfl, hws⟩ c hc
    obtain ⟨v, hv, hc⟩ := List.mem_flatten.mp hc
    obtain ⟨d, rfl, hd⟩ := hws v hv
    rwa [List.mem_singleton.mp hc]
  · intro hw
    refine ⟨w.map ([·]), (List.flatMap_singleton' w).symm, fun v hv => ?_⟩
    obtain ⟨c, hc, rfl⟩ := List.mem_map.mp hv
    exact ⟨c, rfl, hw c hc⟩

theorem mem_run : w ∈ (run q p).language ↔ ∃ c cs, w = c :: cs ∧ q c = true ∧ ∀ d ∈ cs, p d = true := by
  constructor
  · intro hw
    obtain ⟨u, ⟨c, rfl, hc⟩, cs, hcs, rfl⟩ := mem_seq.mp hw
    exact ⟨c, cs, rfl, hc, mem_many_one.mp hcs⟩
  · rintro ⟨c, cs, rfl, hc, hcs⟩
    exact mem_seq.mpr ⟨[c], ⟨c, rfl, hc⟩, cs, mem_many_one.mpr hcs, rfl⟩

theorem mem_digits : w ∈ digits.language ↔ w ≠ [] ∧ ∀ d ∈ w, digit d = true := by
  rw [digits, mem_run]
  constructor
  · rintro ⟨c, cs, rfl, hc, hcs⟩
    exact ⟨List.cons_ne_nil c cs, List.forall_mem_cons.mpr ⟨hc, hcs⟩⟩
  · rintro ⟨hne, hw⟩
    obtain ⟨c, cs, rfl⟩ := List.exists_cons_of_ne_nil hne
    exact ⟨c, cs, rfl, List.forall_mem_cons.mp hw⟩

theorem mem_fraction : w ∈ fraction.language ↔ ∃ ds ∈ digits.language, w = '.' :: ds := by
  simp [fraction, mem_seq, mem_char, eq_comm]

theorem mem_exponent : w ∈ exponent.language ↔ ∃ e sign, (e = 'e' ∨ e = 'E') ∧ (sign = [] ∨ sign = ['+'] ∨ sign = ['-']) ∧
    ∃ ds ∈ digits.language, w = e :: (sign ++ ds) := by
  constructor
  · intro hw
    obtain ⟨u, hu, v, hv, rfl⟩ := mem_seq.mp hw
    obtain ⟨e, he, rfl⟩ := mem_oneOf.mp hu
    obtain ⟨sign, hsign, ds, hds, rfl⟩ := mem_seq.mp hv
    refine ⟨e, sign, by simpa using he, ?_, ds, hds, rfl⟩
    simpa [mem_maybe, mem_oneOf] using hsign
  · rintro ⟨e, sign, he, hsign, ds, hds, rfl⟩
    refine mem_seq.mpr ⟨[e], mem_oneOf.mpr ⟨e, by simpa using he, rfl⟩, sign ++ ds, ?_, rfl⟩
    refine mem_seq.mpr ⟨sign, ?_, ds, hds, rfl⟩
    simpa [mem_maybe, mem_oneOf] using hsign

theorem mem_numeral : w ∈ numeral.language ↔ ∃ ds ∈ digits.language, ∃ f, (f = [] ∨ f ∈ fraction.language) ∧
    ∃ x, (x = [] ∨ x ∈ exponent.language) ∧ ds ++ (f ++ x) = w := by
  constructor
  · intro hw
    obtain ⟨ds, hds, v, hv, rfl⟩ := mem_seq.mp hw
    obtain ⟨f, hf, x, hx, rfl⟩ := mem_seq.mp hv
    exact ⟨ds, hds, f, hf, x, hx, rfl⟩
  · rintro ⟨ds, hds, f, hf, x, hx, rfl⟩
    exact mem_seq.mpr ⟨ds, hds, f ++ x, mem_seq.mpr ⟨f, hf, x, hx, rfl⟩, rfl⟩

theorem mem_quotable : w ∈ quotable.language ↔
    (∃ c, w = [c] ∧ c ∉ ['"', '\\', '\n', '\r']) ∨ ∃ c, w = ['\\', c] ∧ inLine c = true := by
  rw [quotable, mem_alt, mem_noneOf]
  refine or_congr_right ?_
  constructor
  · intro hw
    obtain ⟨u, hu, v, ⟨c, rfl, hc⟩, rfl⟩ := mem_seq.mp hw
    rw [mem_char.mp hu]
    exact ⟨c, rfl, hc⟩
  · rintro ⟨c, rfl, hc⟩
    exact mem_seq.mpr ⟨['\\'], mem_char.mpr rfl, [c], ⟨c, rfl, hc⟩, rfl⟩

theorem mem_quoted : w ∈ quoted.language ↔
    ∃ ws : List (List Char), (∀ v ∈ ws, v ∈ quotable.language) ∧ w = '"' :: (ws.flatten ++ ['"']) := by
  constructor
  · intro hw
    obtain ⟨u, hu, v, hv, rfl⟩ := mem_seq.mp hw
    obtain ⟨body, hbody, last, hlast, rfl⟩ := mem_seq.mp hv
    obtain ⟨ws, rfl, hws⟩ := mem_many.mp hbody
    rw [mem_char.mp hu, mem_char.mp hlast]
    exact ⟨ws, hws, rfl⟩
  · rintro ⟨ws, hws, rfl⟩
    exact mem_seq.mpr ⟨['"'], mem_char.mpr rfl, _,
      mem_seq.mpr ⟨ws.flatten, mem_many.mpr ⟨ws, rfl, hws⟩, ['"'], mem_char.mpr rfl, rfl⟩, rfl⟩

theorem mem_pairs : w ∈ pairs.language ↔ w = ['=', '>'] ∨ w = ['=', '='] ∨ w = ['!', '='] ∨ w = ['<', '='] ∨ w = ['>', '='] ∨
    w = ['&', '&'] ∨ w = ['|', '|'] := by
  simp only [pairs, mem_alt, mem_pair]

end Pattern

namespace Scan

variable {a : Action} {q : Pattern} {w : List Char}

theorem Matched.of_mem (hrule : ⟨q, a⟩ ∈ rules) (hw : w ∈ q.language) : Matched a w := ⟨⟨q, a⟩, hrule, rfl, hw⟩

theorem matched_iff : Matched a w ↔
    .ignore = a ∧ w ∈ Pattern.blanks.language ∨ .ignore = a ∧ w ∈ Pattern.comment.language ∨
      .number = a ∧ w ∈ Pattern.numeral.language ∨ .string = a ∧ w ∈ Pattern.quoted.language ∨
      .word = a ∧ w ∈ Pattern.word.language ∨ .punctuation = a ∧ w ∈ Pattern.pairs.language ∨
      .punctuation = a ∧ w ∈ Pattern.singles.language ∨ .opener = a ∧ w ∈ Pattern.openers.language := by
  simp [Matched, rules]

theorem Longest.unique {rest v : List Char} {b : Action} (hw : Longest rest w a) (hv : Longest rest v b) : w = v ∧ a = b := by
  obtain ⟨hle, rfl⟩ := hw.longest b v hv.matched hv.front
  obtain ⟨hge, -⟩ := hv.longest b w hw.matched hw.front
  have hfront := List.prefix_of_prefix_length_le hw.front hv.front hge
  exact ⟨hfront.eq_of_length (Nat.le_antisymm hge hle), rfl⟩

theorem Matched.ne_nil (h : Matched a w) : w ≠ [] := by
  rcases matched_iff.mp h with ⟨-, hm⟩ | ⟨-, hm⟩ | ⟨-, hm⟩ | ⟨-, hm⟩ | ⟨-, hm⟩ | ⟨-, hm⟩ | ⟨-, hm⟩ | ⟨-, hm⟩
  · obtain ⟨c, cs, rfl, -⟩ := Pattern.mem_run.mp hm
    simp
  · obtain ⟨c, cs, rfl, -⟩ := Pattern.mem_run.mp hm
    simp
  · obtain ⟨ds, hds, f, -, x, -, rfl⟩ := Pattern.mem_numeral.mp hm
    simp [(Pattern.mem_digits.mp hds).1]
  · obtain ⟨ws, -, rfl⟩ := Pattern.mem_quoted.mp hm
    simp
  · obtain ⟨c, cs, rfl, -⟩ := Pattern.mem_run.mp hm
    simp
  · rintro rfl
    simp [Pattern.mem_pairs] at hm
  · obtain ⟨c, -, rfl⟩ := Pattern.mem_oneOf.mp hm
    simp
  · obtain ⟨c, -, rfl⟩ := Pattern.mem_oneOf.mp hm
    simp

end Scan

end LazyModules
