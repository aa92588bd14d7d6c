import Markdown.Text
import Markdown.Unicode.Digit

set_option autoImplicit false

namespace Markdown.Decimal

/-- The greatest number of digits that a written number may have. -/
def mostDigits : Nat := 4300

/-- The number of some digits behind the digits of `value`. -/
def ofDigits (value : Nat) (digits : List Nat) : Nat :=
  digits.foldl (fun sum digit => 10 * sum + digit) value

/-- The digits of a text that starts with a digit and in which each low line stands between two
digits. -/
def digits? : Text → Option (List Nat)
  | [] => none
  | [c] => (Unicode.digit? c).map fun digit => [digit]
  | c :: '_' :: rest => do pure ((← Unicode.digit? c) :: (← digits? rest))
  | c :: rest => do pure ((← Unicode.digit? c) :: (← digits? rest))

/-- A blank around a number: white space other than the information separators. -/
def isNumberSpace (c : Char) : Bool :=
  Unicode.isSpace c && !(decide (0x1c ≤ c.toNat) && decide (c.toNat ≤ 0x1f))

def natural? (text : Text) : Option Nat := do
  let digits ← digits? text
  if digits.length ≤ mostDigits then some (ofDigits 0 digits) else none

def integer? (text : Text) : Option Int :=
  match text.trim isNumberSpace with
  | '-' :: rest => (natural? rest).map fun value => -(value : Int)
  | '+' :: rest => (natural? rest).map Int.ofNat
  | rest => (natural? rest).map Int.ofNat

end Markdown.Decimal
