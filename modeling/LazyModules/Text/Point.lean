/-!
# Code points

A text of another program may hold half a surrogate pair where a character should be. Such a half is a code
point, but no character: it has no encoding, and `legible` puts a character of the private use area in its
place where a text of characters is wanted.
-/
namespace LazyModules.Text

/-- A code point: a character, or the half `U+D800 + k` of a surrogate pair. -/
inductive Point where
  | char (c : Char)
  | half (k : Fin 0x800)
  deriving DecidableEq, Repr

namespace Point

/-- The code point of a number below `0x10000`. -/
def ofUnit (n : Nat) : Point :=
  if h : 0xd800 ≤ n ∧ n < 0xe000 then .half ⟨n - 0xd800, by omega⟩ else .char (Char.ofNat n)

def isHalf : Point → Bool
  | .char _ => false
  | .half _ => true

/-- The character itself, or the one that stands in for a half: `U+E000 + k`. -/
def legible : Point → Char
  | .char c => c
  | .half k => Char.ofNat (0xe000 + k)

end Point

def pointsOf (s : String) : List Point := s.toList.map .char

/-- Code points as a text of characters. -/
def legible (ps : List Point) : String := String.ofList (ps.map Point.legible)

/-- A run of halves in a list of code points: the first of them, its offset, and how many there are. -/
structure HalfRun where
  first : Fin 0x800
  start : Nat
  count : Nat
  deriving DecidableEq, Repr

/-- The first run of halves in what begins at an offset. -/
def halfRun? (offset : Nat) : List Point → Option HalfRun
  | [] => none
  | .char _ :: ps => halfRun? (offset + 1) ps
  | .half k :: ps => some ⟨k, offset, (ps.takeWhile Point.isHalf).length + 1⟩

end LazyModules.Text
