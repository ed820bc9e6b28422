import LazyModules.Number.Binary64

/-!
# Shortest decimals

The decimal with the fewest digits that is nearer to a given double than to any other, and of several
such the nearest to it. `Layout` says how digits and exponent are written out.
-/
namespace LazyModules

/-- The number `digits · 10^exponent`. -/
structure Decimal where
  digits : Nat
  exponent : Int
  deriving DecidableEq, Repr

namespace Decimal

/-- A nonnegative quotient `num / den` of naturals. -/
structure Ratio where
  num : Nat
  den : Nat

/-- `m · 2^q` as a quotient. -/
def Ratio.ofBinary (m : Nat) (q : Int) : Ratio :=
  if 0 ≤ q then ⟨m * Nat.pow 2 q.toNat, 1⟩ else ⟨m, Nat.pow 2 (-q).toNat⟩

/-- `d · 10^e` as a quotient. -/
def Ratio.ofDecimal (d : Nat) (e : Int) : Ratio :=
  if 0 ≤ e then ⟨d * Nat.pow 10 e.toNat, 1⟩ else ⟨d, Nat.pow 10 (-e).toNat⟩

def Ratio.lt (a b : Ratio) : Bool := a.num * b.den < b.num * a.den

def Ratio.le (a b : Ratio) : Bool := a.num * b.den ≤ b.num * a.den

def Ratio.distance (a b : Ratio) : Ratio :=
  let x := a.num * b.den
  let y := b.num * a.den
  ⟨if x ≤ y then y - x else x - y, a.den * b.den⟩

/-- Whether `v` reads back as the double `m · 2^q`: it lies between the midpoints to the neighbours, which
belong to it when `m` is even. Below a power of two the neighbour is twice as near. -/
def readsBack (m : Nat) (q : Int) (v : Ratio) : Bool :=
  let low := if m = Nat.pow 2 52 && Binary64.minExponent < q then Ratio.ofBinary (4 * m - 1) (q - 2)
    else Ratio.ofBinary (2 * m - 1) (q - 1)
  let high := Ratio.ofBinary (2 * m + 1) (q - 1)
  if m % 2 = 0 then low.le v && v.le high else low.lt v && v.lt high

/-- The least `k` with `v < 10^k`, searched downwards from `k` for `fuel` steps. -/
def magnitudeBelow (v : Ratio) : (fuel : Nat) → (k : Int) → Int
  | 0, k => k
  | fuel + 1, k => if (Ratio.ofDecimal 1 (k - 1)).le v then k else magnitudeBelow v fuel (k - 1)

/-- The least `k` with `m · 2^q < 10^k`. -/
def magnitude (m : Nat) (q : Int) : Int :=
  let bits : Int := Nat.log2 m + q
  magnitudeBelow (Ratio.ofBinary m q) 4 (bits * 30103 / 100000 + 2)

/-- The decimal on the grid of step `10^e` that reads back as `m · 2^q`, the nearer one if two do, and of
two at the same distance the even one. -/
def onGrid (m : Nat) (q : Int) (e : Int) : Option Decimal :=
  let v := Ratio.ofBinary m q
  let d := if 0 ≤ e then v.num / (v.den * Nat.pow 10 e.toNat) else v.num * Nat.pow 10 (-e).toNat / v.den
  let below := Ratio.ofDecimal d e
  let above := Ratio.ofDecimal (d + 1) e
  match readsBack m q below && 0 < d, readsBack m q above with
  | false, false => none
  | true, false => some ⟨d, e⟩
  | false, true => some ⟨d + 1, e⟩
  | true, true =>
    let x := v.distance below
    let y := v.distance above
    if x.lt y then some ⟨d, e⟩
    else if y.lt x then some ⟨d + 1, e⟩
    else if d % 2 = 0 then some ⟨d, e⟩ else some ⟨d + 1, e⟩

/-- The first grid with a hit, trying `n` digits and then more. -/
def shortestFrom (m : Nat) (q k : Int) : (fuel n : Nat) → Decimal
  | 0, n => (onGrid m q (k - n)).getD ⟨m, q⟩
  | fuel + 1, n =>
    match onGrid m q (k - n) with
    | some d => d
    | none => shortestFrom m q k fuel (n + 1)

/-- The shortest decimal that reads back as the double `m · 2^q`, for `0 < m`. Seventeen digits always do. -/
def shortest (m : Nat) (q : Int) : Decimal := shortestFrom m q (magnitude m q) 17 1

/-- How a decimal is written: the range of decimal exponents without an exponent part, and the least
number of digits in such a part. -/
structure Layout where
  least : Int
  most : Int
  exponentDigits : Nat

/-- Digits with the point after the first `k` of them, and at least one digit on either side. -/
def positional (ds : List Char) (k : Int) : List Char :=
  if k ≤ 0 then '0' :: '.' :: List.replicate (-k).toNat '0' ++ ds
  else if (ds.length : Int) ≤ k then ds ++ List.replicate (k.toNat - ds.length) '0' ++ ['.', '0']
  else ds.take k.toNat ++ '.' :: ds.drop k.toNat

/-- Digits with the point after the first of them, and the exponent `e` with its sign. -/
def scientific (l : Layout) (ds : List Char) (e : Int) : List Char :=
  let es := Nat.toDigits 10 e.natAbs
  let mantissa := match ds with
    | [] => []
    | [d] => [d]
    | d :: ds => d :: '.' :: ds
  mantissa ++ 'e' :: (if e < 0 then '-' else '+') :: List.replicate (l.exponentDigits - es.length) '0' ++ es

def Layout.write (l : Layout) (d : Decimal) : List Char :=
  let all := Nat.toDigits 10 d.digits
  let ds := (all.reverse.dropWhile (· = '0')).reverse
  let e := (all.length : Int) - 1 + d.exponent
  if l.least ≤ e && e ≤ l.most then positional ds (e + 1) else scientific l ds e

end Decimal

end LazyModules
