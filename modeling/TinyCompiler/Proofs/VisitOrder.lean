import Mathlib.Data.List.Perm.Basic
import TinyCompiler.Proofs.ParsedTrees
import TinyCompiler.Proofs.TypeChecking

/-!
# The order of a parsed tree

The nodes of a parsed tree are numbered in the order in which a walk from the
root visits them: the parts of a node, the node, and then the rest of its
sequence.  No node is left out and none is met twice, so every node but the root
is at the end of one link, part links lead back and sibling links lead forward.
-/

namespace TinyCompiler

/-! ## Links along a walk -/

namespace Tree

/-- The nodes to which a node has links, first its parts and then its
sibling. -/
def links (tree : Tree) (id : NodeId) : List NodeId :=
  match tree.get? id with
  | none => []
  | some node => node.form.children ++ node.sibling.toList

theorem links_of_get? {tree : Tree} {id : NodeId} {node : Node}
    (hnode : tree.get? id = some node) :
    tree.links id = node.form.children ++ node.sibling.toList := by
  simp [links, hnode]

namespace Walk

variable {tree : Tree} {heads order : List NodeId}

/-- Each visit is made for one of the heads or for one link of a visited
node. -/
theorem links_perm (hwalk : tree.Walk heads order) :
    (heads ++ order.flatMap tree.links).Perm order := by
  induction hwalk with
  | nil => exact .nil
  | @cons id node others parts behind rest hnode _ _ _ ihParts
        ihBehind ihRest =>
      rw [List.perm_iff_count] at ihParts ihBehind ihRest ⊢
      intro other
      have hparts := ihParts other
      have hbehind := ihBehind other
      have hrest := ihRest other
      simp only [List.count_append, List.flatMap_append, List.flatMap_cons,
        List.count_cons, List.cons_append,
        links_of_get? hnode] at hparts hbehind hrest ⊢
      omega

/-- When the visits go by number, parts have smaller numbers than their node and
the next of a sequence has a larger one. -/
theorem links_ordered (hwalk : tree.Walk heads order)
    (hsorted : order.Pairwise (· < ·)) {id : NodeId} {node : Node}
    (hid : id ∈ order) (hnode : tree.get? id = some node) :
    (∀ child ∈ node.form.children, child < id) ∧
      ∀ next, node.sibling = some next → id < next := by
  induction hwalk with
  | nil => exact absurd hid List.not_mem_nil
  | @cons head other others parts behind rest hhead hparts hbehind _ ihParts
        ihBehind ihRest =>
      obtain ⟨hfront, hrest, -⟩ := List.pairwise_append.mp hsorted
      obtain ⟨hpartsSorted, hown, hbetween⟩ := List.pairwise_append.mp hfront
      obtain ⟨hlater, hbehindSorted⟩ := List.pairwise_cons.mp hown
      simp only [List.mem_append, List.mem_cons] at hid
      rcases hid with (hid | rfl | hid) | hid
      · exact ihParts hpartsSorted hid
      · obtain rfl := Option.some.inj (hnode.symm.trans hhead)
        constructor
        · intro child hchild
          exact hbetween child (hparts.heads_subset hchild) id
            List.mem_cons_self
        · intro next hnext
          exact hlater next (hbehind.heads_subset (by simp [hnext]))
      · exact ihBehind hbehindSorted hid
      · exact ihRest hrest hid

end Walk
end Tree

/-! ## Walks over the nodes of a derivation -/

section Carries

variable {tree : Tree}

theorem Expr.walk_of_carries (expr : Expr Nat) {start : NodeId}
    (hcarries : tree.Carries start (expr.nodes start)) :
    tree.Walk [start + expr.offset] (List.range' start (expr.offset + 1)) := by
  induction expr generalizing start with
  | const line value =>
      obtain ⟨hnode, -⟩ := Tree.carries_cons.mp hcarries
      exact .single hnode .nil .nil
  | var line name =>
      obtain ⟨hnode, -⟩ := Tree.carries_cons.mp hcarries
      exact .single hnode .nil .nil
  | op line operator left right ihLeft ihRight =>
      rw [nodes_op] at hcarries
      obtain ⟨hparts, hown⟩ := Tree.carries_append.mp hcarries
      obtain ⟨hleft, hright⟩ := Tree.carries_append.mp hparts
      obtain ⟨hnode, -⟩ := Tree.carries_cons.mp hown
      rw [length_nodes] at hright
      rw [List.length_append, length_nodes, length_nodes] at hnode
      have hoperands := (ihLeft hleft).append (ihRight hright)
      rw [List.range'_append_1] at hoperands
      rw [List.range'_1_concat]
      exact .single hnode hoperands .nil

namespace Grammar

mutual

theorem Statement.walk_of_carries : ∀ (statement : Statement) {start : NodeId},
    tree.Carries start (statement.partNodes start) →
      tree.Walk (statement.form start).children
        (List.range' start statement.offset)
  | .ifThen ifWord test thenWord thenPart endWord, start, hcarries => by
      obtain ⟨htest, hthen⟩ := Tree.carries_append.mp hcarries
      rw [Expr.length_nodes] at hthen
      have hwalk := (test.expr.walk_of_carries htest).append
        (thenPart.walk_of_carries hthen)
      rwa [List.range'_append_1] at hwalk
  | .ifElse ifWord test thenWord thenPart elseWord elsePart endWord, start,
      hcarries => by
      obtain ⟨hboth, helse⟩ := Tree.carries_append.mp hcarries
      obtain ⟨htest, hthen⟩ := Tree.carries_append.mp hboth
      rw [List.length_append, Expr.length_nodes, thenPart.length_nodes] at helse
      rw [Expr.length_nodes] at hthen
      have hwalk := ((test.expr.walk_of_carries htest).append
        (thenPart.walk_of_carries hthen)).append
          (elsePart.walk_of_carries helse)
      rwa [List.range'_append_1, List.range'_append_1] at hwalk
  | .repeatUntil repeatWord body untilWord test, start, hcarries => by
      obtain ⟨hbody, htest⟩ := Tree.carries_append.mp hcarries
      rw [body.length_nodes] at htest
      have hwalk :=
        (body.walk_of_carries hbody).append (test.expr.walk_of_carries htest)
      rwa [List.range'_append_1] at hwalk
  | .assign target sign value, start, hcarries =>
      value.expr.walk_of_carries hcarries
  | .read readWord target, start, hcarries => .nil
  | .write writeWord value, start, hcarries =>
      value.expr.walk_of_carries hcarries

theorem Sequence.walk_of_carries : ∀ (sequence : Sequence) {start : NodeId},
    tree.Carries start (sequence.nodes start) →
      tree.Walk [sequence.head start] (List.range' start sequence.count)
  | .mk first rest, start, hcarries => by
      obtain ⟨hparts, hown⟩ := Tree.carries_append.mp hcarries
      rw [first.length_partNodes] at hown
      obtain ⟨hnode, hrest⟩ := Tree.carries_cons.mp hown
      have hwalk := Tree.Walk.single hnode (first.walk_of_carries hparts)
        (rest.walk_of_carries hrest)
      rwa [← List.range'_succ, Nat.add_comm rest.count,
        List.range'_append_1] at hwalk

theorem Statements.walk_of_carries : ∀ (rest : Statements) {start : NodeId},
    tree.Carries start (rest.nodes start) →
      tree.Walk (rest.head? start).toList (List.range' start rest.count)
  | .nil, start, hcarries => .nil
  | .cons semicolon next rest, start, hcarries => by
      obtain ⟨hparts, hown⟩ := Tree.carries_append.mp hcarries
      rw [next.length_partNodes] at hown
      obtain ⟨hnode, hrest⟩ := Tree.carries_cons.mp hown
      have hwalk := Tree.Walk.single hnode (next.walk_of_carries hparts)
        (rest.walk_of_carries hrest)
      rwa [← List.range'_succ, Nat.add_comm rest.count,
        List.range'_append_1] at hwalk

end

theorem Sequence.walk_tree (sequence : Sequence) :
    sequence.tree.Walk [sequence.head 0] (List.range sequence.tree.size) := by
  rw [sequence.size_tree, List.range_eq_range']
  exact sequence.walk_of_carries sequence.tree_carries

end Grammar

end Carries

/-! ## Parsed trees -/

/-- The walk over a parsed tree visits every node once, in the order of the
numbers.  The root and the ends of the links are all the nodes, each of them
once, with the parts of a node before it and the next of its sequence behind
it. -/
theorem parsed_tree_visited_in_order (tokens : List Token) (file : String)
    (tree : Tree) (hparse : Parser.parse tokens file = .ok tree) :
    ∃ root, tree.root = some root ∧
      (∀ visits, tree.Walk [root] visits ↔ visits = List.range tree.size) ∧
      (root :: (List.range tree.size).flatMap tree.links).Perm
        (List.range tree.size) ∧
      ∀ id node, tree.get? id = some node →
        (∀ child ∈ node.form.children, child < id) ∧
          ∀ next, node.sibling = some next → id < next := by
  obtain ⟨sequence, -, -, rfl⟩ := Parser.derivation_of_parse hparse
  have hwalk := sequence.walk_tree
  refine ⟨sequence.head 0, rfl, ?_, hwalk.links_perm, ?_⟩
  · intro visits
    exact ⟨fun hvisits => hvisits.unique hwalk, fun hvisits => hvisits ▸ hwalk⟩
  · intro id node hnode
    have hid : id ∈ List.range sequence.tree.size :=
      List.mem_range.mpr (Tree.get?_eq_some_lt hnode)
    exact hwalk.links_ordered List.pairwise_lt_range hid hnode

/-- A loop over a sequence of two statements. -/
def echoLoop : List Token :=
  [⟨.repeatWord, "repeat", 1⟩, ⟨.readWord, "read", 2⟩, ⟨.identifier, "x", 2⟩,
    ⟨.semicolon, ";", 2⟩, ⟨.writeWord, "write", 3⟩, ⟨.identifier, "x", 3⟩,
    ⟨.untilWord, "until", 4⟩, ⟨.number, "0", 4⟩, ⟨.equals, "=", 4⟩,
      ⟨.identifier, "x", 4⟩]

def echoLoopTree : Tree where
  nodes := #[{ Node.fresh 2 (.read "x") with sibling := some 2 },
    .fresh 3 (.var "x"), .fresh 3 (.write 1), .fresh 4 (.const 0),
    .fresh 4 (.var "x"),
    .fresh 4 (.op .equal 3 4), .fresh 1 (.repeatUntil 0 5)]
  root := some 6

theorem echoLoop_visited_in_order :
    Parser.parse echoLoop "sample" = .ok echoLoopTree ∧
      echoLoopTree.links 6 = [0, 5] ∧ echoLoopTree.links 0 = [2] ∧
      echoLoopTree.Walk [6] [0, 1, 2, 3, 4, 5, 6] := by
  have hparse : Parser.parse echoLoop "sample" = .ok echoLoopTree := by
    decide +kernel
  obtain ⟨root, hroot, hvisits, -⟩ := parsed_tree_visited_in_order _ _ _ hparse
  obtain rfl : 6 = root := Option.some.inj hroot
  exact ⟨hparse, rfl, rfl, (hvisits _).mpr rfl⟩

end TinyCompiler
