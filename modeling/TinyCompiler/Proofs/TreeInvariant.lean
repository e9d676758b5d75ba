import TinyCompiler.Proofs.Actions
import TinyCompiler.Tree.Basic

/-!
# Trees built by their operations

What each operation on a tree does when it succeeds, and the invariant that all
trees built by them have: the parts of a node are earlier nodes of the category
they have to have, and siblings and the root are statements.
-/

namespace TinyCompiler
namespace Tree

/-- A node of one category stands at a number. -/
def Holds (tree : Tree) (category : Category) (id : NodeId) : Prop :=
  ∃ node, tree.get? id = some node ∧ node.form.category = category

def push (tree : Tree) (line : Nat) (form : Form) : Tree :=
  { tree with nodes := tree.nodes.push (Node.fresh line form) }

def update (tree : Tree) (id : NodeId) (change : Node → Node) : Tree :=
  { tree with nodes := tree.nodes.modify id change }

/-- The trees that the operations build from the empty one, in any order. -/
inductive Built : Tree → Prop where
  | empty : Built Tree.empty
  | add {tree after : Tree} {line : Nat} {form : Form} {id : NodeId} :
      Built tree → tree.add line form = .ok (id, after) → Built after
  | setRoot {tree after : Tree} {id : NodeId} :
      Built tree → tree.setRoot id = .ok after → Built after
  | setSibling {tree after : Tree} {previous next : NodeId} :
      Built tree → tree.setSibling previous next = .ok after → Built after
  | appendSibling {tree after : Tree} {head statement : NodeId} :
      Built tree → tree.appendSibling head statement = .ok after → Built after
  | setType {tree after : Tree} {id : NodeId} {type : ValueType} :
      Built tree → tree.setType id type = .ok after → Built after

/-! ## What the operations do -/

theorem get?_eq_some_lt {tree : Tree} {id : NodeId} {node : Node}
    (hnode : tree.get? id = some node) : id < tree.size := by
  obtain ⟨hlt, -⟩ := Array.getElem?_eq_some_iff.mp hnode
  exact hlt

theorem ext_get? {tree other : Tree}
    (hnodes : ∀ id, tree.get? id = other.get? id)
    (hroot : tree.root = other.root) : tree = other := by
  obtain ⟨nodes, root⟩ := tree
  obtain ⟨otherNodes, otherRoot⟩ := other
  obtain rfl : root = otherRoot := hroot
  obtain rfl : nodes = otherNodes := Array.ext_getElem? hnodes
  rfl

theorem Holds.lt_size {tree : Tree} {category : Category} {id : NodeId}
    (hholds : tree.Holds category id) : id < tree.size := by
  obtain ⟨node, hnode, -⟩ := hholds
  exact get?_eq_some_lt hnode

theorem node_eq_ok_iff {tree : Tree} {id : NodeId} {node : Node} :
    tree.node id = .ok node ↔ tree.get? id = some node := by
  unfold Tree.node
  cases tree.get? id <;> simp

theorem demand_eq_ok_iff {tree : Tree} {category : Category} {id : NodeId} :
    tree.demand category id = .ok () ↔ tree.Holds category id := by
  unfold demand Holds
  cases hnode : tree.get? id with
  | none => simp
  | some node =>
      by_cases hcategory : node.form.category = category <;> simp [hcategory]

theorem demandAll_eq_ok_iff {tree : Tree} {parts : List (Category × NodeId)} :
    tree.demandAll parts = .ok () ↔ ∀ part ∈ parts,
      tree.Holds part.1 part.2 := by
  induction parts with
  | nil => simp [demandAll]
  | cons part rest ih =>
      rw [demandAll, except_bind_eq_ok,
        List.forall_mem_cons, ← ih, ← demand_eq_ok_iff]
      constructor
      · rintro ⟨_, hpart, hrest⟩
        exact ⟨hpart, hrest⟩
      · rintro ⟨hpart, hrest⟩
        exact ⟨(), hpart, hrest⟩

theorem add_eq_ok_iff {tree after : Tree} {line : Nat} {form : Form}
    {id : NodeId} :
    tree.add line form = .ok (id, after) ↔
      (∀ part ∈ form.parts, tree.Holds part.1 part.2) ∧
        id = tree.size ∧ after = tree.push line form := by
  unfold add
  rw [except_bind_eq_ok, ← demandAll_eq_ok_iff]
  constructor
  · rintro ⟨_, hparts, hresult⟩
    injection hresult with hresult
    injection hresult with hid hafter
    exact ⟨hparts, hid.symm, hafter.symm⟩
  · rintro ⟨hparts, rfl, rfl⟩
    exact ⟨(), hparts, rfl⟩

theorem setRoot_eq_ok_iff {tree after : Tree} {id : NodeId} :
    tree.setRoot id = .ok after ↔
      tree.Holds .statement id ∧ after = { tree with root := some id } := by
  unfold setRoot
  rw [except_bind_eq_ok, ← demand_eq_ok_iff]
  constructor
  · rintro ⟨_, hroot, hresult⟩
    injection hresult with hafter
    exact ⟨hroot, hafter.symm⟩
  · rintro ⟨hroot, rfl⟩
    exact ⟨(), hroot, rfl⟩

theorem setSibling_eq_ok_iff {tree after : Tree} {previous next : NodeId} :
    tree.setSibling previous next = .ok after ↔
      tree.Holds .statement previous ∧ tree.Holds .statement next ∧
        (∃ sequence, tree.siblings next = .ok sequence ∧ previous ∉ sequence) ∧
          after = tree.update previous fun node =>
            { node with sibling := some next } := by
  unfold setSibling
  simp only [except_bind_eq_ok, ← demand_eq_ok_iff]
  constructor
  · rintro ⟨_, hprevious, _, hnext, sequence, hsequence, hresult⟩
    by_cases hmem : previous ∈ sequence
    · simp [hmem] at hresult
    · rw [if_neg hmem] at hresult
      injection hresult with hafter
      exact ⟨hprevious, hnext, ⟨sequence, hsequence, hmem⟩, hafter.symm⟩
  · rintro ⟨hprevious, hnext, ⟨sequence, hsequence, hmem⟩, rfl⟩
    refine ⟨(), hprevious, (), hnext, sequence, hsequence, ?_⟩
    rw [if_neg hmem]
    rfl

theorem appendSibling_eq_ok {tree after : Tree} {head statement : NodeId}
    (happend : tree.appendSibling head statement = .ok after) :
    ∃ last, tree.setSibling last statement = .ok after := by
  obtain ⟨sequence, -, hlink⟩ := except_bind_eq_ok.mp happend
  exact ⟨sequence.getLastD head, hlink⟩

theorem setType_eq_ok_iff {tree after : Tree} {id : NodeId} {type : ValueType} :
    tree.setType id type = .ok after ↔
      tree.Holds .expression id ∧
        after = tree.update id fun node => { node with type := type } := by
  unfold setType Holds
  simp only [except_bind_eq_ok, node_eq_ok_iff]
  constructor
  · rintro ⟨node, hnode, hresult⟩
    cases hcategory : node.form.category with
    | statement => simp [Node.isStatement, hcategory] at hresult
    | expression =>
        simp only [Node.isStatement, hcategory] at hresult
        injection hresult with hafter
        exact ⟨⟨node, hnode, hcategory⟩, hafter.symm⟩
  · rintro ⟨⟨node, hnode, hcategory⟩, rfl⟩
    exact ⟨node, hnode, by simp [Node.isStatement, hcategory]; rfl⟩

/-! ## What stays -/

theorem get?_push (tree : Tree) (line : Nat) (form : Form) (id : NodeId) :
    (tree.push line form).get? id =
      if id = tree.size then some (Node.fresh line form) else tree.get? id := by
  unfold push get? size
  rw [Array.getElem?_push]

theorem get?_update (tree : Tree) (id other : NodeId) (change : Node → Node) :
    (tree.update id change).get? other =
      if id = other then (tree.get? other).map change else tree.get? other := by
  simp [update, get?, Array.getElem?_modify]

/-- Every node of one tree is in the other, with the same form and line. -/
def Keeps (before after : Tree) : Prop :=
  ∀ id node, before.get? id = some node →
    ∃ kept, after.get? id = some kept ∧ kept.form = node.form ∧
      kept.line = node.line

theorem Holds.kept {before after : Tree} {category : Category} {id : NodeId}
    (hholds : before.Holds category id) (hkeeps : Keeps before after) :
    after.Holds category id := by
  obtain ⟨node, hnode, hcategory⟩ := hholds
  obtain ⟨kept, hkept, hform, -⟩ := hkeeps id node hnode
  exact ⟨kept, hkept, by rw [hform, hcategory]⟩

theorem keeps_push (tree : Tree) (line : Nat) (form : Form) :
    Keeps tree (tree.push line form) := by
  intro id node hnode
  have hid : id ≠ tree.size := Nat.ne_of_lt (get?_eq_some_lt hnode)
  exact ⟨node, by rw [get?_push, if_neg hid, hnode], rfl, rfl⟩

theorem keeps_update (tree : Tree) (id : NodeId) (change : Node → Node)
    (hform : ∀ node, (change node).form = node.form)
    (hline : ∀ node, (change node).line = node.line) :
    Keeps tree (tree.update id change) := by
  intro other node hnode
  by_cases hid : id = other
  · exact ⟨change node,
      by rw [get?_update, if_pos hid, hnode]; rfl, hform node, hline node⟩
  · exact ⟨node, by rw [get?_update, if_neg hid, hnode], rfl, rfl⟩

/-! ## The invariant -/

structure WellFormed (tree : Tree) : Prop where
  parts : ∀ id node, tree.get? id = some node →
    ∀ part ∈ node.form.parts, part.2 < id ∧ tree.Holds part.1 part.2
  siblings : ∀ id node next,
    tree.get? id = some node → node.sibling = some next →
    node.form.category = .statement ∧ tree.Holds .statement next
  root : ∀ id, tree.root = some id → tree.Holds .statement id

theorem WellFormed.sibling_eq_none {tree : Tree} (hgood : tree.WellFormed)
    {id : NodeId} {node : Node} (hnode : tree.get? id = some node)
    (hcategory : node.form.category = .expression) : node.sibling = none := by
  rw [Option.eq_none_iff_forall_ne_some]
  intro next hnext
  have hstatement := (hgood.siblings id node next hnode hnext).1
  rw [hcategory] at hstatement
  contradiction

theorem empty_wellFormed : WellFormed Tree.empty := by
  constructor <;> simp [Tree.empty, get?]

theorem WellFormed.push {tree : Tree} (hgood : tree.WellFormed) (line : Nat)
    {form : Form} (hparts : ∀ part ∈ form.parts, tree.Holds part.1 part.2) :
    (tree.push line form).WellFormed := by
  have hkeeps := keeps_push tree line form
  constructor
  · intro id node hnode part hpart
    rw [get?_push] at hnode
    by_cases hid : id = tree.size
    · rw [if_pos hid] at hnode
      injection hnode with hnode
      subst hnode hid
      have hholds := hparts part hpart
      exact ⟨hholds.lt_size, hholds.kept hkeeps⟩
    · rw [if_neg hid] at hnode
      obtain ⟨hlt, hholds⟩ := hgood.parts id node hnode part hpart
      exact ⟨hlt, hholds.kept hkeeps⟩
  · intro id node next hnode hnext
    rw [get?_push] at hnode
    by_cases hid : id = tree.size
    · rw [if_pos hid] at hnode
      injection hnode with hnode
      subst hnode
      simp [Node.fresh] at hnext
    · rw [if_neg hid] at hnode
      obtain ⟨hcategory, hholds⟩ := hgood.siblings id node next hnode hnext
      exact ⟨hcategory, hholds.kept hkeeps⟩
  · intro id hroot
    exact (hgood.root id hroot).kept hkeeps

theorem WellFormed.update {tree : Tree} (hgood : tree.WellFormed) (id : NodeId)
    {change : Node → Node}
    (hform : ∀ node, (change node).form = node.form)
    (hline : ∀ node, (change node).line = node.line)
    (hsibling : ∀ node next, tree.get? id = some node →
      (change node).sibling = some next → node.sibling ≠ some next →
        node.form.category = .statement ∧ tree.Holds .statement next) :
    (tree.update id change).WellFormed := by
  have hkeeps := keeps_update tree id _ hform hline
  have hold : ∀ other changed,
      (tree.update id change).get? other = some changed →
      ∃ node, tree.get? other = some node ∧ changed.form = node.form ∧
        (changed.sibling = node.sibling ∨ id = other ∧
          changed = change node) := by
    intro other changed hchanged
    rw [get?_update] at hchanged
    by_cases hid : id = other
    · rw [if_pos hid] at hchanged
      obtain ⟨node, hnode, rfl⟩ := Option.map_eq_some_iff.mp hchanged
      exact ⟨node, hnode, hform node, .inr ⟨hid, rfl⟩⟩
    · rw [if_neg hid] at hchanged
      exact ⟨changed, hchanged, rfl, .inl rfl⟩
  constructor
  · intro other changed hchanged part hpart
    obtain ⟨node, hnode, hsame, -⟩ := hold other changed hchanged
    rw [hsame] at hpart
    obtain ⟨hlt, hholds⟩ := hgood.parts other node hnode part hpart
    exact ⟨hlt, hholds.kept hkeeps⟩
  · intro other changed next hchanged hnext
    obtain ⟨node, hnode, hsame, hcase⟩ := hold other changed hchanged
    rw [hsame]
    by_cases hstays : node.sibling = some next
    · obtain ⟨hcategory, hholds⟩ := hgood.siblings other node next hnode hstays
      exact ⟨hcategory, hholds.kept hkeeps⟩
    · rcases hcase with hequal | ⟨rfl, rfl⟩
      · exact absurd (hequal ▸ hnext) hstays
      · obtain ⟨hcategory, hholds⟩ := hsibling node next hnode hnext hstays
        exact ⟨hcategory, hholds.kept hkeeps⟩
  · intro other hroot
    exact (hgood.root other hroot).kept hkeeps

theorem WellFormed.setSibling {tree after : Tree} {previous next : NodeId}
    (hgood : tree.WellFormed)
    (hlink : tree.setSibling previous next = .ok after) :
    after.WellFormed := by
  obtain ⟨⟨node, hnode, hcategory⟩, hnext, -, rfl⟩ :=
    setSibling_eq_ok_iff.mp hlink
  refine hgood.update previous (fun _ => rfl) (fun _ => rfl) ?_
  intro other target hother htarget _
  rw [hnode] at hother
  injection hother with hother
  injection htarget with htarget
  subst hother htarget
  exact ⟨hcategory, hnext⟩

theorem WellFormed.setType {tree after : Tree} {id : NodeId} {type : ValueType}
    (hgood : tree.WellFormed) (htype : tree.setType id type = .ok after) :
    after.WellFormed := by
  obtain ⟨-, rfl⟩ := setType_eq_ok_iff.mp htype
  refine hgood.update id (fun _ => rfl) (fun _ => rfl) ?_
  intro node next _ hsame hother
  exact absurd hsame hother

theorem Built.wellFormed {tree : Tree} (hbuilt : tree.Built) :
    tree.WellFormed := by
  induction hbuilt with
  | empty => exact empty_wellFormed
  | add _ hadd ih =>
      obtain ⟨hparts, -, rfl⟩ := add_eq_ok_iff.mp hadd
      exact ih.push _ hparts
  | setRoot _ hroot ih =>
      obtain ⟨hstatement, rfl⟩ := setRoot_eq_ok_iff.mp hroot
      refine ⟨ih.parts, ih.siblings, ?_⟩
      intro id hid
      injection hid with hid
      exact hid ▸ hstatement
  | setSibling _ hlink ih => exact ih.setSibling hlink
  | appendSibling _ happend ih =>
      obtain ⟨last, hlink⟩ := appendSibling_eq_ok happend
      exact ih.setSibling hlink
  | setType _ htype ih => exact ih.setType htype

end Tree
end TinyCompiler
