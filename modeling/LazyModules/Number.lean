import LazyModules.Number.Shortest

/-!
# Numbers

A number is an integer of any size or a double. A result that is not a number carries a stamp: it equals
nothing, itself included, but two places can be told to hold the very same one.

Integers and doubles mix: arithmetic turns the integer into a double first, comparison is exact.
-/
namespace LazyModules

/-- An integer, a double, or the stamped absence of a number. -/
inductive Number where
  | int (n : Int)
  | float (x : Float)
  | nan (stamp : Nat)

namespace Number

/-- Why arithmetic has no result. -/
inductive Fault where
  | divisionByZero
  | tooLargeToConvert
  | quotientTooLarge
  deriving DecidableEq, Repr

/-- The operators that work on numbers alone. -/
inductive Arithmetic where
  | add
  | sub
  | mul
  | div
  | mod
  deriving DecidableEq, Repr

/-- A double as a number; `stamp` marks it if it is not one. -/
def ofFloat (stamp : Nat) (x : Float) : Number := if x.isNaN then .nan stamp else .float x

/-- The double that a number turns into before it meets another double. -/
def toFloat : Number → Except Fault Float
  | .int n => let x := Binary64.ofInt n; if x.isInf then .error .tooLargeToConvert else .ok x
  | .float x => .ok x
  | .nan _ => .ok (0.0 / 0.0)

def intArithmetic (op : Arithmetic) (a b : Int) : Except Fault Number :=
  match op with
  | .add => .ok (.int (a + b))
  | .sub => .ok (.int (a - b))
  | .mul => .ok (.int (a * b))
  | .div =>
    if b = 0 then .error .divisionByZero else
    let x := Binary64.ofRatio ((a < 0) != (b < 0)) a.natAbs b.natAbs
    if x.isInf then .error .quotientTooLarge else .ok (.float x)
  | .mod => if b = 0 then .error .divisionByZero else .ok (.int (Int.fmod a b))

def floatArithmetic (op : Arithmetic) (a b : Float) : Except Fault Float :=
  match op with
  | .add => .ok (a + b)
  | .sub => .ok (a - b)
  | .mul => .ok (a * b)
  | .div => if b == 0.0 then .error .divisionByZero else .ok (a / b)
  | .mod => if b == 0.0 then .error .divisionByZero else .ok (Binary64.flooredMod a b)

/-- Arithmetic on numbers. The left operand is converted first. -/
def arithmetic (op : Arithmetic) (stamp : Nat) : Number → Number → Except Fault Number
  | .int a, .int b => intArithmetic op a b
  | a, b => do
    let x ← a.toFloat
    let y ← b.toFloat
    let z ← floatArithmetic op x y
    return ofFloat stamp z

def negate (stamp : Nat) : Number → Number
  | .int n => .int (-n)
  | .float x => .float (-x)
  | .nan _ => .nan stamp

/-- The order of two numbers; none if one is not a number. -/
def order : Number → Number → Option Ordering
  | .int a, .int b => some (compare a b)
  | .int a, .float y => Binary64.compareIntFloat a y
  | .float x, .int b => (Binary64.compareIntFloat b x).map Ordering.swap
  | .float x, .float y => if x < y then some .lt else if y < x then some .gt else some .eq
  | .nan _, _ => none
  | _, .nan _ => none

/-- Equality as the language sees it. -/
def equal (a b : Number) : Bool := a.order b == some .eq

/-- The very same absence of a number. -/
def sameNan : Number → Number → Bool
  | .nan s, .nan t => s == t
  | _, _ => false

/-- The most digits that an integer is read from or written with. -/
def digitLimit : Nat := 4300

/-- An integer in decimal; none if it has too many digits. -/
def intText (n : Int) : Option String :=
  if Nat.pow 10 digitLimit ≤ n.natAbs then none
  else
    let ds := Nat.toDigits 10 n.natAbs
    some (String.ofList (if n < 0 then '-' :: ds else ds))

/-- Doubles are written positionally from `0.0001` up to sixteen digits before the point, and else with
an exponent of at least two digits. -/
def floatLayout : Decimal.Layout := ⟨-4, 15, 2⟩

/-- A double in decimal: the fewest digits that read back. -/
def floatText (x : Float) : String :=
  let sign (negative : Bool) (cs : List Char) := String.ofList (if negative then '-' :: cs else cs)
  match Binary64.Parts.ofFloat x with
  | .nan => "nan"
  | .infinite negative => sign negative "inf".toList
  | .finite negative 0 _ => sign negative "0.0".toList
  | .finite negative m q => sign negative (floatLayout.write (Decimal.shortest m q))

/-- A number in decimal; none if it is an integer with too many digits. -/
def text : Number → Option String
  | .int n => intText n
  | .float x => some (floatText x)
  | .nan _ => some "nan"

end Number

end LazyModules
