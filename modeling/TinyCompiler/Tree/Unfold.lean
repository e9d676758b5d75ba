import TinyCompiler.Phrase
import TinyCompiler.Tree.Basic

/-!
# The program in a tree

A walk over a tree along the parts and the sibling links gives the expression,
statement or block that starts at a node, each phrase with a mark of the node it
came from.  On a path that meets no node twice a walk passes at most as many
nodes as there are; that number bounds every walk, and only a tree whose links
run in a cycle reaches the bound.
-/

namespace TinyCompiler

/-- The node a phrase came from. -/
structure Mark where
  id : NodeId
  line : Nat
  type : ValueType
  deriving DecidableEq, Repr

def Node.mark (node : Node) (id : NodeId) : Mark :=
  ⟨id, node.line, node.type⟩

namespace Tree

def exprWithin (tree : Tree) : Nat → NodeId → Except Fault (Expr Mark)
  | 0, _ => .error .endless
  | bound + 1, id => do
      let node ← tree.node id
      match node.form with
      | .const value => pure (.const (node.mark id) value)
      | .var name => pure (.var (node.mark id) name)
      | .op operator left right => do
          let leftExpr ← tree.exprWithin bound left
          let rightExpr ← tree.exprWithin bound right
          pure (.op (node.mark id) operator leftExpr rightExpr)
      | form => .error (.misplaced .expression form)

/-- The statement at a node, when its parts are read by `expr` and `block`. -/
def stmtOf (expr : NodeId → Except Fault (Expr Mark))
    (block : NodeId → Except Fault (Block Mark)) (mark : Mark) :
    Form → Except Fault (Stmt Mark)
  | .read name => pure (.read mark name)
  | .assign name value => return .assign mark name (← expr value)
  | .write value => return .write mark (← expr value)
  | .ifElse test thenPart none =>
      return .ifThen mark (← expr test) (← block thenPart)
  | .ifElse test thenPart (some elsePart) =>
      return .ifElse mark (← expr test) (← block thenPart) (← block elsePart)
  | .repeatUntil body test => do
      let bodyBlock ← block body
      let testExpr ← expr test
      pure (.repeatUntil mark bodyBlock testExpr)
  | form => .error (.misplaced .statement form)

def blockWithin (tree : Tree) : Nat → NodeId → Except Fault (Block Mark)
  | 0, _ => .error .endless
  | bound + 1, id => do
      let node ← tree.node id
      let first ← stmtOf (tree.exprWithin bound) (tree.blockWithin bound)
        (node.mark id) node.form
      match node.sibling with
      | none => pure (.cons first .nil)
      | some next => do
          let rest ← tree.blockWithin bound next
          pure (.cons first rest)

def expr (tree : Tree) (id : NodeId) : Except Fault (Expr Mark) :=
  tree.exprWithin (tree.size + 1) id

/-- The statements from a node to the end of its sequence. -/
def block (tree : Tree) (id : NodeId) : Except Fault (Block Mark) :=
  tree.blockWithin (tree.size + 1) id

/-- The statement at a node, without those behind it. -/
def stmt (tree : Tree) (id : NodeId) : Except Fault (Stmt Mark) := do
  let node ← tree.node id
  stmtOf tree.expr tree.block (node.mark id) node.form

def program (tree : Tree) : Except Fault (Block Mark) :=
  match tree.root with
  | none => pure .nil
  | some root => tree.block root

end Tree

end TinyCompiler
