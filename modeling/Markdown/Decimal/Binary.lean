set_option autoImplicit false

namespace Markdown.Decimal

/-- The number `significand * 2 ^ exponent`. The significand has at most 53 bits, and the exponent
is at least -1074. -/
structure Binary where
  significand : Nat
  exponent : Int
deriving DecidableEq

namespace Binary

def leastExponent : Int := -1074

def greatestExponent : Int := 971

def zero : Binary := ⟨0, leastExponent⟩

/-- A quotient rounded to the nearest whole number, a half to the even one. -/
def roundQuotient (numerator denominator : Nat) : Nat :=
  let quotient := numerator / denominator
  let twice := 2 * (numerator % denominator)
  if twice < denominator ∨ (twice = denominator ∧ quotient % 2 = 0) then quotient else quotient + 1

/-- The quotient of two numbers after division by a power of two. -/
def scaled (numerator denominator : Nat) (exponent : Int) : Nat × Nat :=
  if 0 ≤ exponent then (numerator, denominator * Nat.pow 2 exponent.toNat)
  else (numerator * Nat.pow 2 (-exponent).toNat, denominator)

/-- The nearest number to a positive quotient, unless that is too great. -/
def ofQuotient? (numerator denominator : Nat) : Option Binary :=
  let guess := max ((numerator.log2 : Int) - denominator.log2 - 53) leastExponent
  let (a, b) := scaled numerator denominator guess
  let exponent := if Nat.pow 2 53 ≤ a / b then guess + 1 else guess
  let (a, b) := scaled numerator denominator exponent
  let rounded := roundQuotient a b
  let result : Binary :=
    if rounded = Nat.pow 2 53 then ⟨Nat.pow 2 52, exponent + 1⟩ else ⟨rounded, exponent⟩
  if result.exponent ≤ greatestExponent then some result else none

/-- The nearest number to `digits * 10 ^ exponent`, where `digits` has `count` digits, unless that
is too great. -/
def ofDecimal? (digits count : Nat) (exponent : Int) : Option Binary :=
  if digits = 0 ∨ exponent + count < -330 then some zero
  else if 310 < exponent + count then none
  else if 0 ≤ exponent then ofQuotient? (digits * Nat.pow 10 exponent.toNat) 1
  else ofQuotient? digits (Nat.pow 10 (-exponent).toNat)

end Binary

end Markdown.Decimal
