import TinyCompiler.Tree.Fault

/-!
# Program trees

A tree is a store of nodes that is only ever appended to.  The parts of a new
node have to exist already and to be of the right category, so parts are always
earlier nodes.  Statements are joined into sequences through their sibling
links, and a link that would lead a sequence back into itself is refused.
-/

namespace TinyCompiler

structure Tree where
  nodes : Array Node
  root : Option NodeId
  deriving DecidableEq, Repr

namespace Tree

def empty : Tree where
  nodes := #[]
  root := none

def size (tree : Tree) : Nat :=
  tree.nodes.size

def get? (tree : Tree) (id : NodeId) : Option Node :=
  tree.nodes[id]?

/-- The node with a number; looking at one that does not exist is a fault. -/
def node (tree : Tree) (id : NodeId) : Except Fault Node :=
  match tree.get? id with
  | none => .error (.absent id)
  | some node => .ok node

def demand (tree : Tree) (category : Category) (id : NodeId) :
    Except Fault Unit :=
  match tree.get? id with
  | none => .error (.missing id)
  | some node =>
      if node.form.category = category then .ok ()
      else .error (.misfit category node.line node.form)

/-- Accepts parts that are all of the category they have to have; the first
that is not is the fault. -/
def demandAll (tree : Tree) : List (Category × NodeId) → Except Fault Unit
  | [] => .ok ()
  | (category, id) :: rest => do
      tree.demand category id
      tree.demandAll rest

def add (tree : Tree) (line : Nat) (form : Form) :
    Except Fault (NodeId × Tree) := do
  tree.demandAll form.parts
  pure (tree.size,
    { tree with nodes := tree.nodes.push (Node.fresh line form) })

def setRoot (tree : Tree) (id : NodeId) : Except Fault Tree := do
  tree.demand .statement id
  pure { tree with root := some id }

/-- At most `bound` nodes of the sequence that starts at a node. -/
def chain (tree : Tree) : Nat → NodeId → Except Fault (List NodeId)
  | 0, _ => .error .endless
  | bound + 1, id => do
      let node ← tree.node id
      match node.sibling with
      | none => pure [id]
      | some next => do
          let rest ← tree.chain bound next
          pure (id :: rest)

/-- The sequence that starts at a node, along the sibling links. -/
def siblings (tree : Tree) (head : NodeId) : Except Fault (List NodeId) :=
  tree.chain (tree.size + 1) head

def children (tree : Tree) (id : NodeId) : Except Fault (List NodeId) := do
  let node ← tree.node id
  pure node.form.children

def setSibling (tree : Tree) (previous next : NodeId) : Except Fault Tree := do
  tree.demand .statement previous
  tree.demand .statement next
  let sequence ← tree.siblings next
  if previous ∈ sequence then
    .error (.siblingCycle previous next)
  else
    pure { tree with
      nodes := tree.nodes.modify previous fun node =>
        { node with sibling := some next } }

/-- Puts a statement behind the last one of the sequence that starts at
`head`. -/
def appendSibling (tree : Tree) (head statement : NodeId) :
    Except Fault Tree := do
  let sequence ← tree.siblings head
  tree.setSibling (sequence.getLastD head) statement

def setType (tree : Tree) (id : NodeId) (type : ValueType) :
    Except Fault Tree := do
  let node ← tree.node id
  if node.isStatement then
    .error (.typedStatement id node.line)
  else
    pure { tree with nodes :=
      tree.nodes.modify id fun node => { node with type := type } }

end Tree

end TinyCompiler
