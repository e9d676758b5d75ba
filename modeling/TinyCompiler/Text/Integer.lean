/-!
# Reading integers of 32 bits

A decimal integer is one optional sign and one or more ASCII digits.  The text
is read from the left, and the first thing wrong with it is what is reported:
a character that is no digit, or a digit that takes the value out of range.
-/

namespace TinyCompiler.Text

inductive IntegerError where
  | empty
  | invalidDigit
  | tooLarge
  | tooSmall
  deriving DecidableEq, Repr

def IntegerError.message : IntegerError → String
  | .empty => "cannot parse integer from empty string"
  | .invalidDigit => "invalid digit found in string"
  | .tooLarge => "number too large to fit in target type"
  | .tooSmall => "number too small to fit in target type"

def digitValue? (c : Char) : Option Nat :=
  if c.isDigit then some (c.toNat - '0'.toNat) else none

/-- Appends digits to a magnitude that stays at most `bound`; `overflow` tells
what is wrong with a larger one. -/
def readMagnitude (bound : Nat) (overflow : IntegerError) :
    Nat → List Char → Except IntegerError Nat
  | value, [] => .ok value
  | value, c :: rest =>
      match digitValue? c with
      | none => .error .invalidDigit
      | some digit =>
          if 10 * value + digit ≤ bound then
            readMagnitude bound overflow (10 * value + digit) rest
          else .error overflow

/-- The integer that a text writes, if it is one of 32 bits with a sign. -/
def readInt32 : List Char → Except IntegerError Int32
  | [] => .error .empty
  | ['+'] => .error .invalidDigit
  | ['-'] => .error .invalidDigit
  | '+' :: digits =>
      (readMagnitude (2147483647) .tooLarge 0 digits).map fun value =>
        Int32.ofInt value
  | '-' :: digits =>
      (readMagnitude 2147483648 .tooSmall 0 digits).map fun value =>
        Int32.ofInt (-value)
  | digits =>
      (readMagnitude (2147483647) .tooLarge 0 digits).map fun value =>
        Int32.ofInt value

/-- The decimal text of an integer, with a sign only if it is negative. -/
def writeInt32 (value : Int32) : String :=
  toString value.toInt

end TinyCompiler.Text
