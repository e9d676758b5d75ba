import TinyCompiler.Operator

/-!
# Nodes of a program tree

A node names its parts by their numbers.  Its form says what it is and which
parts it has; the line, the next statement of its sequence and the noted type
stand beside the form.
-/

namespace TinyCompiler

/-- The number of a node, counted in order of creation. -/
abbrev NodeId := Nat

inductive Category where
  | expression
  | statement
  deriving DecidableEq, Repr

inductive Form where
  | ifElse (test thenPart : NodeId) (elsePart : Option NodeId)
  | repeatUntil (body test : NodeId)
  | assign (name : String) (value : NodeId)
  | read (name : String)
  | write (value : NodeId)
  | op (operator : Operator) (left right : NodeId)
  | const (value : Int32)
  | var (name : String)
  deriving DecidableEq, Repr

namespace Form

def category : Form → Category
  | .op _ _ _ | .const _ | .var _ => .expression
  | _ => .statement

/-- The parts of a form in order, each with the category it has to have. -/
def parts : Form → List (Category × NodeId)
  | .ifElse test thenPart elsePart =>
      [(.expression, test), (.statement, thenPart)] ++
        elsePart.toList.map fun part => (.statement, part)
  | .repeatUntil body test => [(.statement, body), (.expression, test)]
  | .assign _ value => [(.expression, value)]
  | .write value => [(.expression, value)]
  | .op _ left right => [(.expression, left), (.expression, right)]
  | .read _ | .const _ | .var _ => []

def children (form : Form) : List NodeId :=
  form.parts.map (·.2)

end Form

structure Node where
  form : Form
  line : Nat
  sibling : Option NodeId
  type : ValueType
  deriving DecidableEq, Repr

namespace Node

def isStatement (node : Node) : Bool :=
  node.form.category = .statement

/-- A node without a next statement and without a type. -/
def fresh (line : Nat) (form : Form) : Node where
  form := form
  line := line
  sibling := none
  type := .void

end Node

end TinyCompiler
