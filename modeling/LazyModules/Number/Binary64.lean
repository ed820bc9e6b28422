/-!
# Double precision, exactly

A finite double is `m · 2^q` for naturals `m < 2^53` and integers `q ≥ -1074`. `ofRatio` rounds a
quotient of naturals to the nearest double, a half to the even neighbour, in exact arithmetic;
`Parts.ofFloat` takes a double apart again.
-/
namespace LazyModules.Binary64

/-- The quotient rounded to the nearest natural, a half to the even one. -/
def divRoundEven (n d : Nat) : Nat :=
  let q := n / d
  let r := n % d
  if 2 * r < d then q
  else if d < 2 * r then q + 1
  else if q % 2 = 0 then q else q + 1

/-- The least exponent of a double. -/
def minExponent : Int := -1074

/-- `n / d` scaled by `2^(-e)` and rounded. -/
def scaled (n d : Nat) (e : Int) : Nat :=
  if 0 ≤ e then divRoundEven n (d * Nat.pow 2 e.toNat) else divRoundEven (n * Nat.pow 2 (-e).toNat) d

/-- An exponent that leaves 53 bits of the quotient `n / d`, or the least one for small quotients. -/
def exponentFor (n d : Nat) : Int :=
  let e : Int := (Nat.log2 n : Int) - (Nat.log2 d : Int) - 52
  let tooFew := if 0 ≤ e then n < d * Nat.pow 2 (e.toNat + 52) else n * Nat.pow 2 (-e).toNat < d * Nat.pow 2 52
  max (if tooFew then e - 1 else e) minExponent

def infinityBits : Nat := 2047 * Nat.pow 2 52

/-- The bits, without sign, of the double nearest to `n / d`; those of infinity if it is out of range. -/
def bitsOfRatio (n d : Nat) : Nat :=
  if n = 0 then 0 else
  let e := exponentFor n d
  let m := scaled n d e
  let bits := if m < Nat.pow 2 52 then m else ((e - minExponent).toNat + 1) * Nat.pow 2 52 + (m - Nat.pow 2 52)
  min bits infinityBits

/-- The double nearest to `n / d`, with a sign. -/
def ofRatio (negative : Bool) (n d : Nat) : Float :=
  Float.ofBits (UInt64.ofNat (bitsOfRatio n d + if negative then Nat.pow 2 63 else 0))

def ofInt (n : Int) : Float := ofRatio (n < 0) n.natAbs 1

/-- The double nearest to `m · 10^e`. Exponents that are out of range by themselves are cut short, so
that no huge power is computed. -/
def ofDecimal (m : Nat) (e : Int) : Float :=
  if m = 0 then 0.0
  else
    let top : Int := (Nat.toDigits 10 m).length + e
    if 310 < top then Float.ofBits (UInt64.ofNat infinityBits)
    else if top < -330 then 0.0
    else if 0 ≤ e then ofRatio false (m * Nat.pow 10 e.toNat) 1
    else ofRatio false m (Nat.pow 10 (-e).toNat)

inductive Parts where
  | nan
  | infinite (negative : Bool)
  | finite (negative : Bool) (m : Nat) (q : Int)
  deriving DecidableEq, Repr

def Parts.ofFloat (x : Float) : Parts :=
  let bits := x.toBits.toNat
  let negative := Nat.pow 2 63 ≤ bits
  let biased : Nat := bits / Nat.pow 2 52 % 2048
  let fraction : Nat := bits % Nat.pow 2 52
  if biased = 2047 then if fraction = 0 then .infinite negative else .nan
  else if biased = 0 then .finite negative fraction minExponent
  else .finite negative (Nat.pow 2 52 + fraction) ((biased : Int) - 1 + minExponent)

/-- The order of an integer and `±m · 2^q`. -/
def compareInt (n : Int) (negative : Bool) (m : Nat) (q : Int) : Ordering :=
  let v : Int := if negative then -m else m
  if 0 ≤ q then compare n (v * Nat.pow 2 q.toNat) else compare (n * Nat.pow 2 (-q).toNat) v

/-- The order of an integer and a double; none for NaN. -/
def compareIntFloat (n : Int) (x : Float) : Option Ordering :=
  match Parts.ofFloat x with
  | .nan => none
  | .infinite negative => some (if negative then .gt else .lt)
  | .finite negative m q => some (compareInt n negative m q)

/-- The remainder of `a / b` with the sign of `a`, which is always a double. -/
def truncatedMod (a b : Float) : Float :=
  match Parts.ofFloat a, Parts.ofFloat b with
  | .finite s m p, .finite _ n q =>
    let e := min p q
    let r := (m * Nat.pow 2 (p - e).toNat) % (n * Nat.pow 2 (q - e).toNat)
    if 0 ≤ e then ofRatio s (r * Nat.pow 2 e.toNat) 1 else ofRatio s r (Nat.pow 2 (-e).toNat)
  | .finite _ _ _, .infinite _ => a
  | _, _ => 0.0 / 0.0

/-- The remainder of `a / b` with the sign of `b`. A zero remainder takes the sign of `b` too. -/
def flooredMod (a b : Float) : Float :=
  let r := truncatedMod a b
  if r == 0.0 then (if b < 0.0 then -0.0 else 0.0)
  else if (b < 0.0) != (r < 0.0) then r + b
  else r

end LazyModules.Binary64
