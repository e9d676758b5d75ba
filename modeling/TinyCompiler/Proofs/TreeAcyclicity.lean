import Mathlib.Data.Finset.Card
import Mathlib.Logic.Relation
import TinyCompiler.Proofs.TreeUnfolding

/-!
# Trees without cycles

A well-formed tree whose part and sibling links run in no cycle has a program:
every walk ends within its bound, because each link leads to a node from which
fewer nodes can be reached.  The other way round, a tree has no cycle if a walk
from each of its nodes ends.
-/

namespace TinyCompiler
namespace Tree

/-- A node has another as a part or as the next of its sequence. -/
def Link (tree : Tree) (id next : NodeId) : Prop :=
  ∃ node, tree.get? id = some node ∧
    (next ∈ node.form.children ∨ node.sibling = some next)

theorem Link.lt_size {tree : Tree} {id next : NodeId}
    (hlink : tree.Link id next) :
    id < tree.size := by
  obtain ⟨node, hnode, -⟩ := hlink
  exact get?_eq_some_lt hnode

/-- What can be reached from a node is the node itself, or reached from one of
its parts or from the next of its sequence. -/
theorem path_iff {tree : Tree} {id other : NodeId} {node : Node}
    (hnode : tree.get? id = some node) :
    Relation.ReflTransGen tree.Link id other ↔
      other = id ∨
        (∃ next ∈ node.form.children,
          Relation.ReflTransGen tree.Link next other) ∨
        ∃ next ∈ node.sibling.toList,
          Relation.ReflTransGen tree.Link next other := by
  rw [Relation.ReflTransGen.cases_head_iff]
  constructor
  · rintro (hself | ⟨next, ⟨same, hsame, hlink⟩, hfurther⟩)
    · exact .inl hself.symm
    · obtain rfl := Option.some.inj (hnode.symm.trans hsame)
      rcases hlink with hchild | hsibling
      · exact .inr (.inl ⟨next, hchild, hfurther⟩)
      · exact .inr (.inr ⟨next, Option.mem_toList.mpr hsibling, hfurther⟩)
  · rintro (hself | ⟨next, hchild, hfurther⟩ | ⟨next, hsibling, hfurther⟩)
    · exact .inl hself.symm
    · exact .inr ⟨next, ⟨node, hnode, .inl hchild⟩, hfurther⟩
    · exact .inr
        ⟨next, ⟨node, hnode, .inr (Option.mem_toList.mp hsibling)⟩, hfurther⟩

def Acyclic (tree : Tree) : Prop :=
  ∀ id, ¬ Relation.TransGen tree.Link id id

open Classical in
/-- The nodes to which the links lead from one of them, that one included. -/
noncomputable def reachable (tree : Tree) (id : NodeId) : Finset NodeId :=
  (Finset.range tree.size).filter fun other =>
    Relation.ReflTransGen tree.Link id other

theorem mem_reachable {tree : Tree} {id other : NodeId} :
    other ∈ tree.reachable id ↔
      other < tree.size ∧ Relation.ReflTransGen tree.Link id other := by
  simp [reachable]

theorem card_reachable_le_size (tree : Tree) (id : NodeId) :
    (tree.reachable id).card ≤ tree.size := by
  calc (tree.reachable id).card ≤ (Finset.range tree.size).card := by
        apply Finset.card_le_card
        intro other hother
        exact Finset.mem_range.mpr (mem_reachable.mp hother).1
    _ = tree.size := Finset.card_range tree.size

theorem Acyclic.card_reachable_lt {tree : Tree} (hacyclic : tree.Acyclic)
    {id next : NodeId} (hlink : tree.Link id next) :
    (tree.reachable next).card < (tree.reachable id).card := by
  have hself : id ∈ tree.reachable id :=
    mem_reachable.mpr ⟨hlink.lt_size, .refl⟩
  apply Finset.card_lt_card
  refine (Finset.ssubset_iff_of_subset ?_).mpr ⟨id, hself, ?_⟩
  · intro other hother
    obtain ⟨hlt, hpath⟩ := mem_reachable.mp hother
    exact mem_reachable.mpr ⟨hlt, hpath.head hlink⟩
  · intro hback
    exact hacyclic id (Relation.TransGen.head' hlink (mem_reachable.mp hback).2)

/-! ## Walks that end -/

/-- A bound on the nodes that can be reached bounds the walks of both
categories. -/
theorem WellFormed.walks_end {tree : Tree} (hgood : tree.WellFormed)
    (hacyclic : tree.Acyclic) (bound : Nat) (id : NodeId)
    (hbound : (tree.reachable id).card ≤ bound) :
    (tree.Holds .expression id → ∃ expr, tree.exprWithin bound id = .ok expr) ∧
      (tree.Holds .statement id → ∃ block,
        tree.blockWithin bound id = .ok block) := by
  induction bound generalizing id with
  | zero =>
      have hnone : ∀ category, ¬ tree.Holds category id := by
        intro category hholds
        have hself : id ∈ tree.reachable id :=
          mem_reachable.mpr ⟨hholds.lt_size, .refl⟩
        exact absurd (Finset.card_pos.mpr ⟨id, hself⟩) (by omega)
      exact ⟨fun hholds => absurd hholds (hnone _),
        fun hholds => absurd hholds (hnone _)⟩
  | succ bound ih =>
      -- A link leads to a node that reaches fewer, for it does not lead back.
      have hnext : ∀ next,
          tree.Link id next → (tree.reachable next).card ≤ bound := by
        intro next hlink
        have hlt := hacyclic.card_reachable_lt hlink
        omega
      have hpart : ∀ node category part, tree.get? id = some node →
          (category, part) ∈ node.form.parts →
            tree.Holds category part ∧ (tree.reachable part).card ≤ bound := by
        intro node category part hnode hmem
        refine ⟨(hgood.parts id node hnode _ hmem).2,
          hnext part ⟨node, hnode, .inl ?_⟩⟩
        exact List.mem_map.mpr ⟨(category, part), hmem, rfl⟩
      have hexpr : ∀ node part, tree.get? id = some node →
          (.expression, part) ∈ node.form.parts →
            ∃ expr, tree.exprWithin bound part = .ok expr := by
        intro node part hnode hmem
        obtain ⟨hholds, hcard⟩ := hpart node _ part hnode hmem
        exact (ih part hcard).1 hholds
      have hblock : ∀ node part, tree.get? id = some node →
          (.statement, part) ∈ node.form.parts →
            ∃ block, tree.blockWithin bound part = .ok block := by
        intro node part hnode hmem
        obtain ⟨hholds, hcard⟩ := hpart node _ part hnode hmem
        exact (ih part hcard).2 hholds
      constructor
      · rintro ⟨node, hnode, hcategory⟩
        obtain ⟨phrase, hphrase⟩ :=
          exprAssembled_exists (node.mark id) hcategory (hexpr node · hnode)
        exact ⟨phrase, exprWithin_succ_eq_ok_iff.mpr ⟨node, hnode, hphrase⟩⟩
      · rintro ⟨node, hnode, hcategory⟩
        obtain ⟨first, hfirst⟩ := stmtAssembled_exists (node.mark id) hcategory
          (hexpr node · hnode) (hblock node · hnode)
        cases hsibling : node.sibling with
        | none =>
            exact ⟨_, blockWithin_succ_eq_ok_iff.mpr
              ⟨node, first, .nil, hnode, hfirst, .inl ⟨hsibling, rfl⟩, rfl⟩⟩
        | some next =>
            obtain ⟨-, hholds⟩ := hgood.siblings id node next hnode hsibling
            obtain ⟨rest, hrest⟩ :=
              (ih next (hnext next ⟨node, hnode, .inr hsibling⟩)).2 hholds
            exact ⟨_, blockWithin_succ_eq_ok_iff.mpr
              ⟨node, first, rest, hnode, hfirst,
                .inr ⟨next, hsibling, hrest⟩, rfl⟩⟩

theorem WellFormed.program_exists {tree : Tree} (hgood : tree.WellFormed)
    (hacyclic : tree.Acyclic) : ∃ program, tree.program = .ok program := by
  unfold program
  cases hroot : tree.root with
  | none => exact ⟨_, rfl⟩
  | some root =>
      have hbound : (tree.reachable root).card ≤ tree.size + 1 :=
        Nat.le_succ_of_le (tree.card_reachable_le_size root)
      exact (hgood.walks_end hacyclic _ root hbound).2 (hgood.root root hroot)

/-! ## No cycle where walks end -/

/-- Some walk from a node ends within a bound. -/
def Unfolds (tree : Tree) (bound : Nat) (id : NodeId) : Prop :=
  (∃ expr, tree.exprWithin bound id = .ok expr) ∨
    ∃ block, tree.blockWithin bound id = .ok block

theorem StmtAssembled.children_exist {expr : NodeId → Except Fault (Expr Mark)}
    {block : NodeId → Except Fault (Block Mark)} {mark : Mark} {form : Form}
    {phrase : Stmt Mark} (hphrase : StmtAssembled expr block mark form phrase) :
    ∀ child ∈ form.children,
      (∃ part, expr child = .ok part) ∨ ∃ part, block child = .ok part := by
  cases hphrase <;> simp_all [Form.children, Form.parts]

theorem ExprAssembled.children_exist {expr : NodeId → Except Fault (Expr Mark)}
    {mark : Mark} {form : Form} {phrase : Expr Mark}
    (hphrase : ExprAssembled expr mark form phrase) :
    ∀ child ∈ form.children, ∃ part, expr child = .ok part := by
  cases hphrase <;> simp_all [Form.children, Form.parts]

theorem Unfolds.link {tree : Tree} (hgood : tree.WellFormed) {bound : Nat}
    {id next : NodeId} (hwalk : tree.Unfolds (bound + 1) id)
    (hlink : tree.Link id next) :
    tree.Unfolds bound next := by
  obtain ⟨node, hnode, hcase⟩ := hlink
  rcases hwalk with ⟨expr, hexpr⟩ | ⟨block, hblock⟩
  · obtain ⟨same, hsame, hphrase⟩ := exprWithin_succ_eq_ok_iff.mp hexpr
    obtain rfl : node = same := Option.some.inj (hnode.symm.trans hsame)
    rcases hcase with hchild | hsibling
    · exact .inl (hphrase.children_exist next hchild)
    · have hstatement := (hgood.siblings id node next hnode hsibling).1
      rw [hphrase.category_eq] at hstatement
      contradiction
  · obtain ⟨same, first, rest, hsame, hphrase, hrest, -⟩ :=
      blockWithin_succ_eq_ok_iff.mp hblock
    obtain rfl : node = same := Option.some.inj (hnode.symm.trans hsame)
    rcases hcase with hchild | hsibling
    · exact hphrase.children_exist next hchild
    · rcases hrest with ⟨hnone, -⟩ | ⟨other, hother, hrest⟩
      · rw [hsibling] at hnone
        contradiction
      · obtain rfl : next = other :=
          Option.some.inj (hsibling.symm.trans hother)
        exact .inr ⟨rest, hrest⟩

theorem not_unfolds_zero (tree : Tree) (id : NodeId) : ¬ tree.Unfolds 0 id := by
  simp [Unfolds, exprWithin, blockWithin]

theorem Unfolds.path {tree : Tree} (hgood : tree.WellFormed) {bound : Nat}
    {id next : NodeId} (hwalk : tree.Unfolds bound id)
    (hpath : Relation.TransGen tree.Link id next) :
    ∃ smaller < bound, tree.Unfolds smaller next := by
  have hstep : ∀ {bound id next}, tree.Unfolds bound id → tree.Link id next →
      ∃ smaller < bound, tree.Unfolds smaller next := by
    intro bound id next hwalk hlink
    cases bound with
    | zero => exact absurd hwalk (not_unfolds_zero tree id)
    | succ bound =>
        exact ⟨bound, Nat.lt_succ_self bound, hwalk.link hgood hlink⟩
  induction hpath with
  | single hlink => exact hstep hwalk hlink
  | tail _ hlink ih =>
      obtain ⟨middle, hmiddle, hwalk⟩ := ih
      obtain ⟨smaller, hsmaller, hend⟩ := hstep hwalk hlink
      exact ⟨smaller, hsmaller.trans hmiddle, hend⟩

/-- A walk from a node on a cycle would hold a shorter walk from that node. -/
theorem WellFormed.not_unfolds_of_cycle {tree : Tree} (hgood : tree.WellFormed)
    {id : NodeId} (hcycle : Relation.TransGen tree.Link id id) (bound : Nat) :
    ¬ tree.Unfolds bound id := by
  induction bound using Nat.strong_induction_on with
  | _ bound ih =>
      intro hwalk
      obtain ⟨smaller, hsmaller, hagain⟩ := hwalk.path hgood hcycle
      exact ih smaller hsmaller hagain

theorem WellFormed.acyclic_of_unfolds {tree : Tree} (hgood : tree.WellFormed)
    (hwalks : ∀ id < tree.size, ∃ bound, tree.Unfolds bound id) :
    tree.Acyclic := by
  intro id hcycle
  obtain ⟨next, hlink, -⟩ := Relation.TransGen.head'_iff.mp hcycle
  obtain ⟨bound, hwalk⟩ := hwalks id hlink.lt_size
  exact hgood.not_unfolds_of_cycle hcycle bound hwalk

end Tree
end TinyCompiler
