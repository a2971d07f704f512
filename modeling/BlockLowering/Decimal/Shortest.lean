import BlockLowering.Decimal.Binary64

/-! The shortest decimal text of a floating-point number: the fewest digits that still round to
the number, and of those the nearest. Two layouts of these digits are in use: positional
throughout, or with an exponent for very large and very small numbers. They also differ in which
of two equally near decimals they take. -/

namespace BlockLowering.Decimal

/-- The number `digits * 10 ^ exponent`. -/
structure Scaled where
  digits : Nat
  exponent : Int
  deriving Repr, DecidableEq

/-- The fraction `n / d * 10 ^ e` as numerator and denominator. -/
def tenfold (n d : Nat) (e : Int) : Nat × Nat :=
  if 0 ≤ e then (n * Nat.pow 10 e.toNat, d) else (n, d * Nat.pow 10 (-e).toNat)

/-- The position of the leading decimal digit of a positive fraction: the greatest `e` with
`10 ^ e ≤ n / d`. -/
def leading (n d : Nat) : Int :=
  let e : Int := (Nat.toDigits 10 n).length - (Nat.toDigits 10 d).length
  let (p, q) := tenfold 1 1 e
  if p * d ≤ n * q then e else e - 1

/-- The numbers that round to a given one lie between `low` and `high`, in quarters of the unit
of its last place; the ends belong to them just if `closed`. -/
structure Neighbourhood where
  low : Nat
  centre : Nat
  high : Nat
  closed : Bool

def neighbourhood (x : Binary64) : Neighbourhood :=
  let m := x.mantissa
  let below := if m = Nat.pow 2 52 ∧ -1074 < x.exponent then 1 else 2
  ⟨4 * m - below, 4 * m, 4 * m + 2, m % 2 = 0⟩

/-- Which of two equally near decimals is taken. -/
inductive Tie where
  | up
  | even
  deriving Repr, DecidableEq

/-- The best decimal with `count` digits for `x`, if one of that length rounds to `x`. -/
def withDigits? (tie : Tie) (x : Binary64) (count : Nat) : Option Scaled :=
  let near := neighbourhood x
  let (num, den) := Binary64.shifted 1 1 (2 - x.exponent)
  let e := leading (near.centre * num) den - (count - 1 : Nat)
  let (n, d) := tenfold (near.centre * num) den (-e)
  let c := n / d
  let (p, q) := tenfold 1 1 e
  let fits (k : Nat) : Bool :=
    let place := k * p * den
    let low := near.low * num * q
    let high := near.high * num * q
    if near.closed then low ≤ place && place ≤ high else low < place && place < high
  let lower := if fits c then some c else none
  let upper := if fits (c + 1) then some (c + 1) else none
  match lower, upper with
  | some _, some _ =>
    let down := 2 * (n % d) < d ∨ (2 * (n % d) = d ∧ tie = .even ∧ c % 2 = 0)
    some ⟨if down then c else c + 1, e⟩
  | some k, none => some ⟨k, e⟩
  | none, some k => some ⟨k, e⟩
  | none, none => none

/-- Moves zeros at the end of the digits into the exponent, at most `count` of them. -/
def Scaled.trim : Nat → Scaled → Scaled
  | 0, s => s
  | count + 1, s =>
    if s.digits ≠ 0 ∧ s.digits % 10 = 0 then trim count ⟨s.digits / 10, s.exponent + 1⟩ else s

/-- The shortest decimal that rounds to `x`. Seventeen digits always do. -/
def shortest (tie : Tie) (x : Binary64) : Scaled :=
  match (List.range 17).findSome? fun k => withDigits? tie x (k + 1) with
  | some s => s.trim 20
  | none => ⟨0, 0⟩

def zeros (n : Nat) : String := String.ofList (List.replicate n '0')

/-- The digits with the point after the first `n` of them. -/
def pointed (ds : String) (n : Nat) : String :=
  String.ofList (ds.toList.take n) ++ "." ++ String.ofList (ds.toList.drop n)

/-- All digits in their places, with no exponent, and a point only before a fraction. The greater
of two equally near decimals is taken. -/
def positional (x : Binary64) : String :=
  if x.isZero then "0"
  else
    let s := shortest .up x
    let ds := toString s.digits
    let whole : Int := ds.length + s.exponent
    if 0 ≤ s.exponent then ds ++ zeros s.exponent.toNat
    else if 0 < whole then pointed ds whole.toNat
    else "0." ++ zeros (-whole).toNat ++ ds

/-- Positional, and always with a point, for numbers from `10 ^ -5` up to `10 ^ 16`; outside that
range one digit before the point and an exponent with its sign. The even one of two equally near
decimals is taken. -/
def scientific (x : Binary64) : String :=
  if x.isZero then "0.0"
  else
    let s := shortest .even x
    let ds := toString s.digits
    let whole : Int := ds.length + s.exponent
    if 0 ≤ s.exponent ∧ whole ≤ 16 then ds ++ zeros s.exponent.toNat ++ ".0"
    else if 0 < whole ∧ whole ≤ 16 then pointed ds whole.toNat
    else if -5 < whole ∧ whole ≤ 0 then "0." ++ zeros (-whole).toNat ++ ds
    else
      (if ds.length = 1 then ds else pointed ds 1) ++ (if 0 < whole then "e+" else "e") ++
        toString (whole - 1)

end BlockLowering.Decimal
