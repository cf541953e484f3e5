/-
JointCircuit.Text.Decimal — unsigned numbers in decimal.

A number is one or more digits, with as many leading zeros as one likes
and a plus sign in front if one likes. It has to be below a bound, which
is tested digit by digit: what comes first in the text decides whether a
wrong character or the size is reported.
-/
namespace JointCircuit

namespace Decimal

/-- Why a text is not a number below the bound. -/
inductive Failure where
  | empty
  | invalidDigit
  | tooLarge
deriving DecidableEq, Repr

/-- The text shown for a failure. -/
def Failure.message : Failure → String
  | .empty => "cannot parse integer from empty string"
  | .invalidDigit => "invalid digit found in string"
  | .tooLarge => "number too large to fit in target type"

/-- The value of a decimal digit. -/
def digit? (c : Char) : Option Nat :=
  if '0' ≤ c ∧ c ≤ '9' then some (c.toNat - '0'.toNat) else none

/-- Append digits to the number read so far. -/
def readDigits (bound : Nat) : (acc : Nat) → List Char → Except Failure Nat
  | acc, [] => .ok acc
  | acc, c :: rest =>
    match digit? c with
    | none => .error .invalidDigit
    | some d =>
      if 10 * acc + d < bound then readDigits bound (10 * acc + d) rest else .error .tooLarge

/-- Read a number below `bound`. -/
def read (bound : Nat) (text : String) : Except Failure Nat :=
  match text.toList with
  | [] => .error .empty
  | ['+'] => .error .invalidDigit
  | '+' :: digits => readDigits bound 0 digits
  | digits => readDigits bound 0 digits

end Decimal

end JointCircuit
