import TinyCompiler.Text.Integer
import TinyCompiler.Text.Layout
import TinyCompiler.Tree.Unfold

/-!
# Listing a tree

One line for each phrase, the parts of a phrase below it and two columns further
in.  The then part and the else part of an `if` follow each other without a mark
between them.
-/

namespace TinyCompiler

/-- The depth and the text of a line. -/
abbrev OutlineEntry := Nat × String

def Expr.outline (depth : Nat) : Expr α → List OutlineEntry
  | .const _ value => [(depth, "Const: " ++ Text.writeInt32 value)]
  | .var _ name => [(depth, "Id: " ++ name)]
  | .op _ operator left right =>
      (depth, "Op: " ++ operator.symbol) ::
        (left.outline (depth + 1) ++ right.outline (depth + 1))

mutual

def Stmt.outline (depth : Nat) : Stmt α → List OutlineEntry
  | .read _ name => [(depth, "Read: " ++ name)]
  | .assign _ name value =>
      (depth, "Assign to: " ++ name) :: value.outline (depth + 1)
  | .write _ value => (depth, "Write") :: value.outline (depth + 1)
  | .ifThen _ test thenPart =>
      (depth, "If") ::
        (test.outline (depth + 1) ++ thenPart.outline (depth + 1))
  | .ifElse _ test thenPart elsePart =>
      (depth, "If") ::
        (test.outline (depth + 1) ++ thenPart.outline (depth + 1) ++
          elsePart.outline (depth + 1))
  | .repeatUntil _ body test =>
      (depth, "Repeat") ::
        (body.outline (depth + 1) ++ test.outline (depth + 1))

def Block.outline (depth : Nat) : Block α → List OutlineEntry
  | .nil => []
  | .cons first rest => first.outline depth ++ rest.outline depth

end

def OutlineEntry.line (entry : OutlineEntry) : String :=
  Text.spaces (2 * entry.1) ++ entry.2 ++ "\n"

/-- The listing of a tree; it is empty without a root. -/
def Tree.listing (tree : Tree) : Except Tree.Fault String := do
  let program ← tree.program
  pure (String.join ((program.outline 0).map OutlineEntry.line))

end TinyCompiler
