import TinyCompiler.Generator.Basic
import TinyCompiler.Tree.Unfold

/-!
# Lowering a tree

The code of an expression leaves its value in the accumulator.  A right operand
that is a constant or a variable goes into the instruction of its operator.  Any
other is computed while the left value waits in one scratch cell, and is then
kept in another while the left value comes back.  Every expression needs a noted
type, or the tree has not been analyzed.

Code is emitted while the tree is walked, so a walk that fails at a node has
emitted the code of what comes before it.  The walks are bounded in the same way
as those that unfold a tree.
-/

namespace TinyCompiler

/-- An expression without a type has not been analyzed. -/
def Mark.demandType (mark : Mark) : Generator.Action Unit := do
  if mark.type = .void then throw (.unanalyzedExpression mark.line)

namespace Generator

def ofTree (result : Except Tree.Fault α) : Action α :=
  match result with
  | .error fault => throw (.malformed fault)
  | .ok value => pure value

/-- Runs `code` for the right operand and brings back the left value, which is
in the accumulator before and after. -/
def spill (code : Action Unit) : Action Operand := do
  let left ← reserveScratch
  let _ ← emit (.store left)
  code
  let right ← reserveScratch
  let _ ← emit (.store right)
  let _ ← emit (.load left)
  releaseScratch 2
  pure (.memory right)

/-- The right operand at a node, whose code is used if it needs code. -/
def operandAt (tree : Tree) (code : Action Unit) (id : NodeId) :
    Action Operand := do
  let node ← ofTree (tree.node id)
  (node.mark id).demandType
  match node.form with
  | .const value => pure (.immediate value)
  | .var name => do
      let location ← locationOf name node.line
      pure (.memory location)
  | _ => spill code

/-- A node without a type is not an analyzed expression, whatever it is. -/
def lowerExprWithin (tree : Tree) : Nat → NodeId → Action Unit
  | 0, _ => throw (.malformed .endless)
  | bound + 1, id => do
      let node ← ofTree (tree.node id)
      (node.mark id).demandType
      match node.form with
      | .const value => do
          let _ ← emit (.loadImmediate value)
      | .var name => do
          let location ← locationOf name node.line
          let _ ← emit (.load location)
      | .op operator left right => do
          lowerExprWithin tree bound left
          let operand ← operandAt tree (lowerExprWithin tree bound right) right
          let _ ← emit (.operate operator operand)
      | form => throw (.malformed (.misplaced .expression form))

/-- Emits the code of a statement, when the code of its parts is emitted by
`expr` and `block`. -/
def lowerForm (expr block : NodeId → Action Unit) (line : Nat) :
    Form → Action Unit
  | .read name => do
      let location ← locationOf name line
      let _ ← emit (.read location)
  | .assign name value => do
      expr value
      let location ← locationOf name line
      let _ ← emit (.store location)
  | .write value => do
      expr value
      let _ ← emit .write
  | .ifElse test thenPart none => do
      expr test
      let skipThen ← emitPending .jumpIfZero
      block thenPart
      patch skipThen (← get).nextAddress
  | .ifElse test thenPart (some elsePart) => do
      expr test
      let skipThen ← emitPending .jumpIfZero
      block thenPart
      let skipElse ← emitPending .jump
      patch skipThen (← get).nextAddress
      block elsePart
      patch skipElse (← get).nextAddress
  | .repeatUntil body test => do
      let start := (← get).nextAddress
      block body
      expr test
      let _ ← emit (.jumpIfZero start)
  | form => throw (.malformed (.misplaced .statement form))

def lowerBlockWithin (tree : Tree) : Nat → NodeId → Action Unit
  | 0, _ => throw (.malformed .endless)
  | bound + 1, id => do
      let node ← ofTree (tree.node id)
      lowerForm (lowerExprWithin tree bound) (lowerBlockWithin tree bound)
        node.line node.form
      node.sibling.forM (lowerBlockWithin tree bound)

def lowerExpr (tree : Tree) (id : NodeId) : Action Unit :=
  lowerExprWithin tree (tree.size + 1) id

/-- Emits the code of the statements from a node to the end of its sequence. -/
def lowerBlock (tree : Tree) (id : NodeId) : Action Unit :=
  lowerBlockWithin tree (tree.size + 1) id

/-- Emits the code of the statement at a node, without those behind it. -/
def lowerStmt (tree : Tree) (id : NodeId) : Action Unit := do
  let node ← ofTree (tree.node id)
  lowerForm (lowerExpr tree) (lowerBlock tree) node.line node.form

def lowerProgram (tree : Tree) : Action Program := do
  tree.root.forM (lowerBlock tree)
  finish

end Generator

/-- The program for a tree, when the variables have the locations of a symbol
table, with what happened to the code. -/
def generateWithHistory (tree : Tree) (symbols : SymbolTable) :
    Except GenerationError Program × Array Generator.Event :=
  match Generator.lowerProgram tree (Generator.start symbols) with
  | .ok program generator => (.ok program, generator.history)
  | .error error generator => (.error error, generator.history)

def generate (tree : Tree) (symbols : SymbolTable) :
    Except GenerationError Program :=
  (generateWithHistory tree symbols).1

end TinyCompiler
