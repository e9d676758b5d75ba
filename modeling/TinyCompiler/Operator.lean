import TinyCompiler.Token

/-!
# Operators and types

The six binary operators of the language, the two types their operands and
results can have, and what an operator does with two integers of 32 bits.
-/

namespace TinyCompiler

/-- The type noted at a node; `void` as long as none is known. -/
inductive ValueType where
  | void
  | integer
  | boolean
  deriving DecidableEq, Repr

def ValueType.name : ValueType → String
  | .void => "Void"
  | .integer => "Integer"
  | .boolean => "Boolean"

inductive Operator where
  | less
  | equal
  | plus
  | minus
  | times
  | over
  deriving DecidableEq, Repr

namespace Operator

def all : List Operator :=
  [.less, .equal, .plus, .minus, .times, .over]

def ofKind? : Token.Kind → Option Operator
  | .less => some .less
  | .equals => some .equal
  | .plus => some .plus
  | .dash => some .minus
  | .star => some .times
  | .slash => some .over
  | _ => none

def name : Operator → String
  | .less => "Less"
  | .equal => "Equal"
  | .plus => "Plus"
  | .minus => "Minus"
  | .times => "Times"
  | .over => "Over"

def symbol : Operator → String
  | .less => "<"
  | .equal => "="
  | .plus => "+"
  | .minus => "-"
  | .times => "*"
  | .over => "/"

def isComparison : Operator → Bool
  | .less | .equal => true
  | _ => false

def resultType (operator : Operator) : ValueType :=
  if operator.isComparison then .boolean else .integer

/-- The result on two integers.  Sums, differences and products wrap, a
quotient is cut toward zero, a comparison gives 1 or 0, and there is no result
for a division by zero. -/
def result? (operator : Operator) (left right : Int32) : Option Int32 :=
  match operator with
  | .less => some (if left < right then 1 else 0)
  | .equal => some (if left = right then 1 else 0)
  | .plus => some (left + right)
  | .minus => some (left - right)
  | .times => some (left * right)
  | .over => if right = 0 then none else some (left / right)

end Operator

end TinyCompiler
