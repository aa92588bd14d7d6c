import Markdown.Decimal.Binary
import Markdown.Text

set_option autoImplicit false

namespace Markdown.Decimal

/-- A decimal `digits * 10 ^ exponent`. -/
structure Digits where
  digits : Nat
  exponent : Int
deriving DecidableEq

namespace Binary

/-- The number as a quotient, four times as great. -/
def fourfold (x : Binary) (quarters : Nat) : Nat × Nat :=
  if 0 ≤ x.exponent then (quarters * Nat.pow 2 x.exponent.toNat, 4)
  else (quarters, 4 * Nat.pow 2 (-x.exponent).toNat)

/-- The decimal `digits * 10 ^ exponent` as a quotient. -/
def decimalQuotient (digits : Nat) (exponent : Int) : Nat × Nat :=
  if 0 ≤ exponent then (digits * Nat.pow 10 exponent.toNat, 1)
  else (digits, Nat.pow 10 (-exponent).toNat)

def isLess (x y : Nat × Nat) : Bool :=
  x.1 * y.2 < y.1 * x.2

/-- The quarters of the last place between the number and the point half way to its lower
neighbour, which is nearer at a power of two. -/
def lowerQuarters (x : Binary) : Nat :=
  if x.significand = Nat.pow 2 52 ∧ leastExponent < x.exponent then 1 else 2

/-- A decimal reads back as the number: it lies between the points half way to the neighbours, or
on one of them if the significand is even. -/
def readsBack (x : Binary) (digits : Nat) (exponent : Int) : Bool :=
  let low := x.fourfold (4 * x.significand - x.lowerQuarters)
  let high := x.fourfold (4 * x.significand + 2)
  let value := decimalQuotient digits exponent
  if x.significand % 2 = 0 then !isLess value low && !isLess high value
  else isLess low value && isLess value high

def leadingExponent (x : Binary) : Int :=
  let value := x.fourfold (4 * x.significand)
  let guess := ((value.1.log2 : Int) - value.2.log2) * 30103 / 100000
  (([2, 1, 0, -1, -2] : List Int).map (guess + ·)).find?
    (fun exponent => !isLess value (decimalQuotient 1 exponent)) |>.getD guess

/-- The nearest decimal with `count` digits that reads back as the number, if there is one. -/
def withDigits? (x : Binary) (count : Nat) : Option Digits :=
  let exponent := x.leadingExponent - count + 1
  let value := x.fourfold (4 * x.significand)
  let unit := decimalQuotient 1 exponent
  let below := (value.1 * unit.2) / (value.2 * unit.1)
  let fits := x.readsBack below exponent
  let fitsAbove := x.readsBack (below + 1) exponent
  if fits && fitsAbove then
    let middle := decimalQuotient (2 * below + 1) exponent
    let twice := (2 * value.1, value.2)
    if isLess twice middle || (!isLess middle twice && below % 2 == 0) then some ⟨below, exponent⟩
    else some ⟨below + 1, exponent⟩
  else if fits then some ⟨below, exponent⟩
  else if fitsAbove then some ⟨below + 1, exponent⟩
  else none

/-- The decimal with the fewest digits that reads back as the number. Seventeen are enough. -/
def shortest (x : Binary) : Digits :=
  if x.significand = 0 then ⟨0, 0⟩
  else ((List.range' 1 17).findSome? x.withDigits?).getD ⟨0, 0⟩

end Binary

/-- How a decimal is written: which exponents of the leading digit go without an exponent part, and
how many digits an exponent part has at least. -/
structure Layout where
  leastPlain : Int
  pastPlain : Int
  exponentDigits : Nat

namespace Layout

/-- The digits of a decimal without zeros at the end, and the exponent of the first. -/
def significant (decimal : Digits) : Text × Int :=
  let digits := (toString decimal.digits).toList
  let trimmed := Text.trimEnd (· == '0') digits
  (if trimmed.isEmpty then ['0'] else trimmed,
    if decimal.digits = 0 then 0 else decimal.exponent + digits.length - 1)

/-- A decimal as text. There is always a digit behind the point or an exponent part. -/
def render (layout : Layout) (decimal : Digits) : Text :=
  let (digits, exponent) := significant decimal
  if layout.leastPlain ≤ exponent ∧ exponent < layout.pastPlain then
    if exponent < 0 then
      '0' :: '.' :: (List.replicate ((-exponent).toNat - 1) '0' ++ digits)
    else
      let whole := exponent.toNat + 1
      let behind := digits.drop whole
      digits.take whole ++ List.replicate (whole - digits.length) '0' ++
        '.' :: (if behind.isEmpty then ['0'] else behind)
  else
    let part := (toString exponent.natAbs).toList
    let behind := digits.drop 1
    digits.take 1 ++ (if behind.isEmpty then [] else '.' :: behind) ++
      'e' :: (if exponent < 0 then '-' else '+') ::
      (List.replicate (layout.exponentDigits - part.length) '0' ++ part)

end Layout

end Markdown.Decimal
