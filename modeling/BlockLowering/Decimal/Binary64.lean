/-! Finite floating-point numbers with a 53-bit mantissa, without their sign, and exact rounding
of fractions to them: to the nearest such number, and to the even one of two nearest. -/

namespace BlockLowering.Decimal

/-- The number `mantissa * 2 ^ exponent`. The mantissa is below `2 ^ 53`; it is at least `2 ^ 52`
unless the exponent is the least one, -1074. -/
structure Binary64 where
  mantissa : Nat
  exponent : Int
  deriving Repr, DecidableEq, Inhabited

namespace Binary64

def zero : Binary64 := ⟨0, -1074⟩

def isZero (x : Binary64) : Bool := x.mantissa == 0

/-- The fraction `num / den / 2 ^ e` as numerator and denominator. -/
def shifted (num den : Nat) (e : Int) : Nat × Nat :=
  if 0 ≤ e then (num, den * Nat.pow 2 e.toNat) else (num * Nat.pow 2 (-e).toNat, den)

/-- The natural number nearest to `num / den`; a half goes to the even neighbour. -/
def roundHalfEven (num den : Nat) : Nat :=
  let q := num / den
  let r := num % den
  if den < 2 * r ∨ (2 * r = den ∧ q % 2 = 1) then q + 1 else q

/-- The exponent of the numbers around `num / den`, for positive `num` and `den`. -/
def exponentOf (num den : Nat) : Int :=
  let low : Int := max ((num.log2 : Int) - den.log2 - 53) (-1074)
  let (n, d) := shifted num den low
  if Nat.pow 2 53 ≤ n / d then low + 1 else low

/-- The number nearest to `num / den`, or `none` if that is beyond the largest. -/
def ofRatio (num den : Nat) : Option Binary64 :=
  if num = 0 then some zero
  else
    let e := exponentOf num den
    let (n, d) := shifted num den e
    let m := roundHalfEven n d
    let x : Binary64 := if m = Nat.pow 2 53 then ⟨Nat.pow 2 52, e + 1⟩ else ⟨m, e⟩
    if 971 < x.exponent then none else some x

def ofNat (n : Nat) : Option Binary64 := ofRatio n 1

def mul (x y : Binary64) : Option Binary64 :=
  let (n, d) := shifted (x.mantissa * y.mantissa) 1 (-(x.exponent + y.exponent))
  ofRatio n d

/-- The quotient by a positive number. -/
def div (x y : Binary64) : Option Binary64 :=
  let (n, d) := shifted x.mantissa y.mantissa (y.exponent - x.exponent)
  ofRatio n d

/-- The number nearest to `digits * 10 ^ e`. Exponents that are out of reach for that many digits
are settled without computing the power. -/
def ofDecimal (digits : Nat) (e : Int) : Option Binary64 :=
  let length : Int := (Nat.toDigits 10 digits).length
  if digits = 0 ∨ length + e < -400 then some zero
  else if 400 < length + e then none
  else if 0 ≤ e then ofRatio (digits * Nat.pow 10 e.toNat) 1
  else ofRatio digits (Nat.pow 10 (-e).toNat)

end Binary64

end BlockLowering.Decimal
