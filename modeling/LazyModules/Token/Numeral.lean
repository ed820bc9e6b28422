import LazyModules.Token
import LazyModules.Number

/-!
# Numerals

A numeral is a run of digits, then perhaps a point and digits, then perhaps an exponent with its digits.
Without point and exponent it is an integer, which may have at most `Number.digitLimit` digits, leading
zeros counted; else it is the double nearest to what is written.
-/
namespace LazyModules.Numeral

def isDigit (c : Char) : Bool := '0' ≤ c && c ≤ '9'

/-- The natural that a run of digits stands for. -/
def natOf (ds : List Char) : Nat := ds.foldl (fun n c => n * 10 + (c.toNat - '0'.toNat)) 0

/-- Digits, a fraction and an exponent, each as written and possibly empty. -/
structure Parts where
  whole : List Char
  fraction : List Char
  exponent : List Char

/-- How many characters of a fraction stand at the front: none unless a digit follows the point. -/
def fractionLength : List Char → Nat
  | '.' :: cs => match (cs.takeWhile isDigit).length with
    | 0 => 0
    | n + 1 => n + 2
  | _ => 0

/-- How many characters of an exponent stand at the front: none unless a digit follows. -/
def exponentLength : List Char → Nat
  | e :: cs =>
    if e = 'e' || e = 'E' then
      let sign := match cs with
        | s :: _ => if s = '+' || s = '-' then 1 else 0
        | [] => 0
      match ((cs.drop sign).takeWhile isDigit).length with
      | 0 => 0
      | n + 1 => n + 2 + sign
    else 0
  | [] => 0

/-- The longest numeral at the front, in parts; its whole part is empty if there is none. -/
def Parts.ofChars (cs : List Char) : Parts :=
  let whole := cs.takeWhile isDigit
  let rest := cs.drop whole.length
  let fraction := rest.take (fractionLength rest)
  let rest := rest.drop fraction.length
  ⟨whole, fraction, rest.take (exponentLength rest)⟩

def Parts.length (p : Parts) : Nat := p.whole.length + p.fraction.length + p.exponent.length

def exponentValue : List Char → Int
  | _ :: '-' :: ds => -(natOf ds : Int)
  | _ :: '+' :: ds => natOf ds
  | _ :: ds => natOf ds
  | [] => 0

/-- The constant that a numeral stands for; none for an integer of too many digits. -/
def Parts.value (p : Parts) : Option Constant :=
  if p.fraction.isEmpty && p.exponent.isEmpty then
    if Number.digitLimit < p.whole.length then none else some (.int (natOf p.whole))
  else
    let decimals := p.fraction.drop 1
    some (.float (Binary64.ofDecimal (natOf (p.whole ++ decimals))
      (exponentValue p.exponent - decimals.length)))

end LazyModules.Numeral
