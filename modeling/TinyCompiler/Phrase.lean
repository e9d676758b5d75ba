import TinyCompiler.Operator

/-!
# Phrases

Expressions, statements and blocks of statements as they stand in a program,
with a note of some type at each of them.  A block is the list of its
statements; every walk over a program is a recursion on these types.
-/

namespace TinyCompiler

inductive Expr (α : Type) where
  | const (note : α) (value : Int32)
  | var (note : α) (name : String)
  | op (note : α) (operator : Operator) (left right : Expr α)
  deriving DecidableEq, Repr

mutual

inductive Stmt (α : Type) where
  | read (note : α) (name : String)
  | assign (note : α) (name : String) (value : Expr α)
  | write (note : α) (value : Expr α)
  | ifThen (note : α) (test : Expr α) (thenPart : Block α)
  | ifElse (note : α) (test : Expr α) (thenPart elsePart : Block α)
  | repeatUntil (note : α) (body : Block α) (test : Expr α)

inductive Block (α : Type) where
  | nil
  | cons (first : Stmt α) (rest : Block α)

end

namespace Expr

def note : Expr α → α
  | .const note _ | .var note _ | .op note _ _ _ => note

/-- The type of the value an expression has, whatever its note says. -/
def type : Expr α → ValueType
  | .const _ _ | .var _ _ => .integer
  | .op _ operator _ _ => operator.resultType

end Expr

end TinyCompiler
