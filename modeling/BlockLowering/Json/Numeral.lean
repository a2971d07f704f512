import BlockLowering.Json.Tree

/-! From the digits of a JSON number to its value. An integer that fits 64 bits is exact. Any other
number becomes a floating-point number in two steps that round: the leading digits that fit 64
bits, and their product or quotient with a power of ten. Digits beyond those only move the
point. -/

namespace BlockLowering

open Decimal (Binary64)

/-- The parts of a number token. Digits are numbers below 10; the exponent has its sign and its
digits. -/
structure Numeral where
  negative : Bool
  whole : List Nat
  fraction : Option (List Nat)
  exponent : Option (Bool × List Nat)

namespace Numeral

def wordLimit : Nat := Nat.pow 2 64

/-- Appends whole digits to `kept` while the number stays below the word limit; also the count of
the digits left out. -/
def keepWhole (kept : Nat) : List Nat → Nat × Nat
  | [] => (kept, 0)
  | d :: ds =>
    if kept * 10 + d < wordLimit then keepWhole (kept * 10 + d) ds else (kept, ds.length + 1)

/-- Appends digits of the fraction in the same way; also the count of the digits taken. -/
def keepFraction (kept taken : Nat) : List Nat → Nat × Nat
  | [] => (kept, taken)
  | d :: ds =>
    if kept * 10 + d < wordLimit then keepFraction (kept * 10 + d) (taken + 1) ds
    else (kept, taken)

def value (digits : List Nat) : Nat := digits.foldl (fun n d => n * 10 + d) 0

/-- The greatest power of ten below the limit of floating-point numbers. -/
def topPower : Nat := 308

def power (e : Nat) : Binary64 := (Binary64.ofDecimal 1 e).getD .zero

/-- The rounded value of `x * 10 ^ e`. An exponent below the range is worked off in steps, at most
`steps` of them; by then the number is zero. -/
def scale : Nat → Binary64 → Int → Token Binary64
  | steps, x, e =>
    if e.natAbs ≤ topPower then
      if 0 ≤ e then
        match x.mul (power e.natAbs) with
        | some y => .ok y
        | none => .error .numberTooLarge
      else .ok ((x.div (power e.natAbs)).getD .zero)
    else if x.isZero then .ok x
    else if 0 ≤ e then .error .numberTooLarge
    else
      match steps with
      | 0 => .ok .zero
      | steps + 1 => scale steps ((x.div (power topPower)).getD .zero) (e + topPower)

/-- An exponent from here on is settled by its sign alone. -/
def exponentLimit : Nat := Nat.pow 2 31

def magnitude (kept : Nat) (point : Int) : Option (Bool × List Nat) → Token Binary64
  | none => scale 3 ((Binary64.ofNat kept).getD .zero) point
  | some (negative, digits) =>
    let e := value digits
    if e < exponentLimit then
      scale 3 ((Binary64.ofNat kept).getD .zero) (if negative then point - e else point + e)
    else if kept ≠ 0 ∧ !negative then .error .numberTooLarge
    else .ok .zero

/-- The value of a token. A minus zero, and every number with a fraction or an exponent, is a
floating-point number. -/
def toNumber (n : Numeral) : Token Number :=
  let (kept, dropped) := keepWhole 0 n.whole
  let float (kept : Nat) (point : Int) : Token Number :=
    (magnitude kept point n.exponent).map (.float n.negative)
  match n.fraction, n.exponent with
  | none, none =>
    if dropped = 0 ∧ !n.negative then .ok (.int kept)
    else if dropped = 0 ∧ kept ≠ 0 ∧ kept ≤ Nat.pow 2 63 then .ok (.int (-kept))
    else float kept dropped
  | none, some _ => float kept dropped
  | some ds, _ =>
    let (kept, taken) := keepFraction kept 0 ds
    float kept (dropped - taken)

end Numeral

end BlockLowering
