import TinyCompiler.Text.Integer
import TinyCompiler.Text.Quoted
import TinyCompiler.Tree.Node

/-!
# Misuse of a tree

Why an operation on a tree is refused.  A refused operation changes nothing.
-/

namespace TinyCompiler

/-- How a node is named in messages. -/
def nodeName (id : NodeId) : String :=
  "NodeId(" ++ toString id ++ ")"

/-- The description of a form in messages: its parts by number and its own
value, texts quoted. -/
def Form.describe : Form → String
  | .ifElse test thenPart elsePart =>
      "If \x7b test: " ++ nodeName test ++ ", then_part: " ++
        nodeName thenPart ++
        ", else_part: " ++ optionalNodeName elsePart ++ " \x7d"
  | .repeatUntil body test =>
      "Repeat \x7b body: " ++ nodeName body ++ ", test: " ++
        nodeName test ++ " \x7d"
  | .assign name value =>
      "Assign \x7b name: " ++ Text.quoted name ++ ", value: " ++
        nodeName value ++ " \x7d"
  | .read name => "Read \x7b name: " ++ Text.quoted name ++ " \x7d"
  | .write value => "Write \x7b value: " ++ nodeName value ++ " \x7d"
  | .op operator left right =>
      "Op \x7b op: " ++ operator.name ++ ", lhs: " ++ nodeName left ++
        ", rhs: " ++ nodeName right ++ " \x7d"
  | .const value => "Const \x7b value: " ++ Text.writeInt32 value ++ " \x7d"
  | .var name => "Id \x7b name: " ++ Text.quoted name ++ " \x7d"
where
  optionalNodeName : Option NodeId → String
    | none => "None"
    | some id => "Some(" ++ nodeName id ++ ")"

namespace Tree

inductive Fault where
  /-- A part, a root or a sibling is to be a node that does not exist. -/
  | missing (id : NodeId)
  /-- A node of the other category stands where `expected` has to stand. -/
  | misfit (expected : Category) (line : Nat) (form : Form)
  /-- The next statement of `previous` already leads to `previous`. -/
  | siblingCycle (previous next : NodeId)
  | typedStatement (id : NodeId) (line : Nat)
  /-- A node of the wrong category was met on a walk that wanted `expected`. -/
  | misplaced (expected : Category) (form : Form)
  | absent (id : NodeId)
  /-- A walk went through more nodes than there are. -/
  | endless
  deriving DecidableEq, Repr

/-- The fault in words; there are none for the faults of looking at a node and
of walking on a cycle. -/
def Fault.message? : Fault → Option String
  | .missing id => some ("malformed tree: no node " ++ nodeName id)
  | .misfit .expression line form =>
      some ("malformed tree: expected an expression at line " ++
        toString line ++
        ", found " ++ form.describe)
  | .misfit .statement line form =>
      some ("malformed tree: expected a statement at line " ++ toString line ++
        ", found " ++ form.describe)
  | .siblingCycle previous next =>
      some ("sibling link " ++ nodeName previous ++ " -> " ++ nodeName next ++
        " would form a cycle")
  | .typedStatement id line =>
      some ("type annotation on statement node " ++ nodeName id ++
        " (line " ++ toString line ++ ")")
  | .misplaced .statement form =>
      some ("internal error: entered unreachable code: expression " ++
        form.describe ++
        " in statement position")
  | .misplaced .expression form =>
      some ("internal error: entered unreachable code: statement " ++
        form.describe ++
        " in expression position")
  | .absent _ => none
  | .endless => none

end Tree

end TinyCompiler
