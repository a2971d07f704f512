/-! Hexadecimal digits. -/

namespace BlockLowering.Text

/-- The lower-case hexadecimal digits of `n`, with no leading zero. -/
def hex (n : Nat) : String := String.ofList (Nat.toDigits 16 n)

/-- The value of a digit of either case. -/
def hexValue? (c : Char) : Option Nat :=
  if '0' ≤ c ∧ c ≤ '9' then some (c.toNat - '0'.toNat)
  else if 'a' ≤ c ∧ c ≤ 'f' then some (c.toNat - 'a'.toNat + 10)
  else if 'A' ≤ c ∧ c ≤ 'F' then some (c.toNat - 'A'.toNat + 10)
  else none

end BlockLowering.Text
