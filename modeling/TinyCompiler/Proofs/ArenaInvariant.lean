import TinyCompiler.Proofs.AnalyzedGeneration
import TinyCompiler.Proofs.TreeAcyclicity
import TinyCompiler.Proofs.TreeOperations
import TinyCompiler.Proofs.WalkBounds
import TinyCompiler.Tree.Listing

/-!
# The invariant of the node store

Every tree that operations leave, whatever numbers they are given, is an arena:
its links are of the right categories, its sequences end, and only expressions
have types.  In an arena a walk comes to no node that is missing or of the wrong
category.  All that can keep the analysis or the listing from going through the
tree is a cycle, where they would not end.  The generation can also come to a
phrase that the analysis has not seen, and then it stops there, cycle or not.
-/

namespace TinyCompiler
namespace Tree

/-- Only expressions have types. -/
def TypesOnExpressions (tree : Tree) : Prop :=
  ∀ id node, tree.get? id = some node → node.type ≠ .void →
    node.form.category = .expression

structure Arena (tree : Tree) : Prop extends tree.WellFormed where
  sequences : ∀ id < tree.size, ∃ sequence,
    tree.siblings id = .ok sequence ∧ sequence.Nodup
  types : tree.TypesOnExpressions

/-! ## Types -/

theorem TypesOnExpressions.update {tree : Tree}
    (htypes : tree.TypesOnExpressions) (id : NodeId)
    {change : Node → Node} (hform : ∀ node, (change node).form = node.form)
    (htype : ∀ node, tree.get? id = some node →
      (change node).type = node.type ∨ node.form.category = .expression) :
    (tree.update id change).TypesOnExpressions := by
  intro other changed hchanged hvoid
  rw [get?_update] at hchanged
  by_cases hid : id = other
  · rw [if_pos hid] at hchanged
    obtain ⟨node, hnode, rfl⟩ := Option.map_eq_some_iff.mp hchanged
    rw [hform]
    rcases htype node (hid ▸ hnode) with hsame | hcategory
    · exact htypes other node hnode (hsame ▸ hvoid)
    · exact hcategory
  · rw [if_neg hid] at hchanged
    exact htypes other changed hchanged hvoid

theorem Built.typesOnExpressions {tree : Tree} (hbuilt : tree.Built) :
    tree.TypesOnExpressions := by
  induction hbuilt with
  | empty => simp [TypesOnExpressions, Tree.empty, get?]
  | add _ hadd ih =>
      obtain ⟨-, -, rfl⟩ := add_eq_ok_iff.mp hadd
      intro id node hnode hvoid
      rw [get?_push] at hnode
      split at hnode
      · obtain rfl := Option.some.inj hnode
        exact absurd rfl hvoid
      · exact ih id node hnode hvoid
  | setRoot _ hroot ih =>
      obtain ⟨-, rfl⟩ := setRoot_eq_ok_iff.mp hroot
      exact ih
  | setSibling _ hlink ih =>
      obtain ⟨-, -, -, rfl⟩ := setSibling_eq_ok_iff.mp hlink
      exact ih.update _ (fun _ => rfl) fun _ _ => .inl rfl
  | appendSibling _ happend ih =>
      obtain ⟨last, hlink⟩ := appendSibling_eq_ok happend
      obtain ⟨-, -, -, rfl⟩ := setSibling_eq_ok_iff.mp hlink
      exact ih.update _ (fun _ => rfl) fun _ _ => .inl rfl
  | setType _ htype ih =>
      obtain ⟨⟨node, hnode, hcategory⟩, rfl⟩ := setType_eq_ok_iff.mp htype
      refine ih.update _ (fun _ => rfl) fun same hsame => .inr ?_
      obtain rfl := Option.some.inj (hnode.symm.trans hsame)
      exact hcategory

theorem Built.arena {tree : Tree} (hbuilt : tree.Built) : tree.Arena where
  toWellFormed := hbuilt.wellFormed
  sequences := by
    intro id hid
    obtain ⟨sequence, hsequence⟩ := hbuilt.sequencesEnd id hid
    exact ⟨sequence, siblings_eq_ok_iff.mpr hsequence, hsequence.nodup⟩
  types := hbuilt.typesOnExpressions

/-! ## Faults of walks -/

section OnlyEndless

variable {α β : Type}

/-- All that can go wrong is that there are more nodes to pass than the bound
allows. -/
def OnlyEndless (result : Except Fault α) : Prop :=
  ∀ fault, result = .error fault → fault = .endless

theorem onlyEndless_ok (value : α) : OnlyEndless (.ok value) := by
  rintro fault ⟨⟩

theorem onlyEndless_endless :
    OnlyEndless (.error .endless : Except Fault α) := by
  rintro fault ⟨⟩
  rfl

theorem OnlyEndless.bind {first : Except Fault α} {next : α → Except Fault β}
    (hfirst : OnlyEndless first)
    (hnext : ∀ value, first = .ok value → OnlyEndless (next value)) :
    OnlyEndless (first >>= next) := by
  intro fault hfault
  rcases except_bind_eq_error.mp hfault with herror | ⟨value, hvalue, herror⟩
  · exact hfirst fault herror
  · exact hnext value hvalue fault herror

end OnlyEndless

theorem stmtOf_onlyEndless {expr : NodeId → Except Fault (Expr Mark)}
    {block : NodeId → Except Fault (Block Mark)} {form : Form} (mark : Mark)
    (hcategory : form.category = .statement)
    (hexpr : ∀ part, (.expression, part) ∈ form.parts → OnlyEndless (expr part))
    (hblock : ∀ part,
      (.statement, part) ∈ form.parts → OnlyEndless (block part)) :
    OnlyEndless (stmtOf expr block mark form) := by
  cases form with
  | read name => exact onlyEndless_ok _
  | assign name value =>
      exact (hexpr value (by simp [Form.parts])).bind fun _ _ =>
        onlyEndless_ok _
  | write value =>
      exact (hexpr value (by simp [Form.parts])).bind fun _ _ =>
        onlyEndless_ok _
  | ifElse test thenPart elsePart =>
      have htest := hexpr test (by simp [Form.parts])
      have hthen := hblock thenPart (by simp [Form.parts])
      cases elsePart with
      | none =>
          exact htest.bind fun _ _ => hthen.bind fun _ _ => onlyEndless_ok _
      | some elsePart =>
          have helse := hblock elsePart (by simp [Form.parts])
          exact htest.bind fun _ _ => hthen.bind fun _ _ => helse.bind
            fun _ _ => onlyEndless_ok _
  | repeatUntil body test =>
      have hbody := hblock body (by simp [Form.parts])
      have htest := hexpr test (by simp [Form.parts])
      exact hbody.bind fun _ _ => htest.bind fun _ _ => onlyEndless_ok _
  | op operator left right => simp [Form.category] at hcategory
  | const value => simp [Form.category] at hcategory
  | var name => simp [Form.category] at hcategory

theorem node_onlyEndless {tree : Tree} {id : NodeId} {node : Node}
    (hnode : tree.get? id = some node) : OnlyEndless (tree.node id) := by
  rw [node_eq_ok_iff.mpr hnode]
  exact onlyEndless_ok node

theorem WellFormed.exprWithin_onlyEndless {tree : Tree}
    (hgood : tree.WellFormed) (bound : Nat) {id : NodeId}
    (hholds : tree.Holds .expression id) :
    OnlyEndless (tree.exprWithin bound id) := by
  induction bound generalizing id with
  | zero => exact onlyEndless_endless
  | succ bound ih =>
      obtain ⟨node, hnode, hcategory⟩ := hholds
      refine (node_onlyEndless hnode).bind fun same hsame => ?_
      obtain rfl := Option.some.inj (hnode.symm.trans (node_eq_ok_iff.mp hsame))
      have hpart := hgood.parts id node hnode
      cases hform : node.form with
      | const value => exact onlyEndless_ok _
      | var name => exact onlyEndless_ok _
      | op operator left right =>
          rw [hform] at hpart
          have hleft := ih (hpart (.expression, left) (by simp [Form.parts])).2
          have hright :=
            ih (hpart (.expression, right) (by simp [Form.parts])).2
          exact hleft.bind fun _ _ => hright.bind fun _ _ => onlyEndless_ok _
      | _ => simp [hform, Form.category] at hcategory

theorem WellFormed.blockWithin_onlyEndless {tree : Tree}
    (hgood : tree.WellFormed) (bound : Nat) {id : NodeId}
    (hholds : tree.Holds .statement id) :
    OnlyEndless (tree.blockWithin bound id) := by
  induction bound generalizing id with
  | zero => exact onlyEndless_endless
  | succ bound ih =>
      obtain ⟨node, hnode, hcategory⟩ := hholds
      refine (node_onlyEndless hnode).bind fun same hsame => ?_
      obtain rfl := Option.some.inj (hnode.symm.trans (node_eq_ok_iff.mp hsame))
      have hpart := hgood.parts id node hnode
      refine (stmtOf_onlyEndless (node.mark id) hcategory
        (fun part hmem => hgood.exprWithin_onlyEndless bound (hpart _ hmem).2)
        (fun part hmem => ih (hpart _ hmem).2)).bind fun first _ => ?_
      cases hsibling : node.sibling with
      | none => exact onlyEndless_ok _
      | some next =>
          exact (ih (hgood.siblings id node next hnode hsibling).2).bind
            fun _ _ => onlyEndless_ok _

theorem WellFormed.program_onlyEndless {tree : Tree} (hgood : tree.WellFormed) :
    OnlyEndless tree.program := by
  unfold program
  cases hroot : tree.root with
  | none => exact onlyEndless_ok _
  | some root => exact hgood.blockWithin_onlyEndless _ (hgood.root root hroot)

theorem WellFormed.listing_onlyEndless {tree : Tree} (hgood : tree.WellFormed) :
    OnlyEndless tree.listing :=
  hgood.program_onlyEndless.bind fun _ _ => onlyEndless_ok _

/-- Once the walk has ended, noting the types of what was found does not
fail. -/
theorem WellFormed.analyze_onlyEndless {tree : Tree} (hgood : tree.WellFormed)
    (file : String) :
    OnlyEndless (analyze tree file) := by
  refine hgood.program_onlyEndless.bind fun program hprogram => ?_
  rw [noteTypes_eq_typed (program_typesOf hprogram)]
  exact onlyEndless_ok _

end Tree

/-! ## Runs of operations -/

namespace Tree

/-- No walk over the tree comes to a node that it cannot go on from.  A walk
that emits code can be stopped by a phrase that the analysis has not seen, which
it can reach.  Apart from that, all that walks can do, besides what they are
for, is to go on for ever. -/
structure Walkable (tree : Tree) : Prop where
  exprs : ∀ bound id,
    tree.Holds .expression id → OnlyEndless (tree.exprWithin bound id)
  blocks : ∀ bound id,
    tree.Holds .statement id → OnlyEndless (tree.blockWithin bound id)
  analysis : ∀ file, OnlyEndless (analyze tree file)
  listing : OnlyEndless tree.listing
  exprCode : ∀ bound id before error after, tree.Holds .expression id →
    Generator.lowerExprWithin tree bound id before = .error error after →
      tree.Offends before.symbols id error ∨ error = .malformed .endless
  blockCode : ∀ bound id before error after, tree.Holds .statement id →
    Generator.lowerBlockWithin tree bound id before = .error error after →
      tree.Offends before.symbols id error ∨ error = .malformed .endless
  generation : ∀ symbols error, generate tree symbols = .error error →
    ∃ root, tree.root = some root ∧
      (tree.Offends symbols root error ∨
        error = .malformed .endless ∧
          Generator.Endless tree root (Generator.start symbols))
  ends : tree.Acyclic → ∃ program, tree.program = .ok program

theorem WellFormed.walkable {tree : Tree} (hgood : tree.WellFormed) :
    tree.Walkable where
  exprs := fun bound _ hholds => hgood.exprWithin_onlyEndless bound hholds
  blocks := fun bound _ hholds => hgood.blockWithin_onlyEndless bound hholds
  analysis := hgood.analyze_onlyEndless
  listing := hgood.listing_onlyEndless
  exprCode := fun _ _ _ _ _ hholds herror =>
    hgood.lowerExprWithin_error hholds herror
  blockCode :=
    fun _ _ _ _ _ hholds herror => hgood.lowerBlockWithin_error hholds herror
  generation := fun _ _ herror => hgood.generate_error herror
  ends := hgood.program_exists

/-- Operations on the empty tree leave an arena, whatever they are given and
whether they fail or not.  Further ones keep every node with its form and line,
one that fails changes nothing, and the analysis, the listing and the generation
meet no node that they have no way on from. -/
theorem operations_leave_arena (operations more : List Operation) :
    let tree := Tree.empty.leaveAll operations
    tree.Arena ∧ Keeps tree (tree.leaveAll more) ∧
      (∀ operation after, Operation.perform operation tree = .ok () after ↔
        operation.apply tree = .ok after) ∧
      (∀ operation fault after,
        Operation.perform operation tree = .error fault after ↔
        operation.apply tree = .error fault ∧ after = tree) ∧
      tree.Walkable := by
  intro tree
  have hbuilt : tree.Built := Built.empty.leaveAll operations
  have hdone : ∀ operation after,
      Operation.perform operation tree = .ok () after ↔
      operation.apply tree = .ok after := fun _ _ => Operation.perform_eq_ok_iff
  have hfailed : ∀ operation fault after,
      Operation.perform operation tree = .error fault after ↔
      operation.apply tree = .error fault ∧ after = tree :=
    fun _ _ _ => Operation.perform_eq_error_iff
  exact ⟨hbuilt.arena, leaveAll_keeps tree more, hdone, hfailed,
    hbuilt.wellFormed.walkable⟩

end Tree
end TinyCompiler
