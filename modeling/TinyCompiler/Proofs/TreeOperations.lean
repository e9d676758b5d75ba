import TinyCompiler.Proofs.SiblingSequences

/-!
# Runs of operations on a tree

Operations on a tree as data, so that runs of them can be quantified over.  An
operation is performed in place: it looks at the tree for a fault and writes
when there is none.  Performing is applying the operation to a copy, so an
operation that fails leaves the tree as it was, and what a run of operations
leaves, failed ones among them, is a tree built by those that succeed.
-/

namespace TinyCompiler
namespace Tree

/-- An operation on a tree with what it is given. -/
inductive Operation where
  | add (line : Nat) (form : Form)
  | setRoot (id : NodeId)
  | setSibling (previous next : NodeId)
  | appendSibling (head statement : NodeId)
  | setType (id : NodeId) (type : ValueType)
  deriving DecidableEq, Repr

namespace Operation

/-- The tree after an operation. -/
def apply (tree : Tree) : Operation → Except Fault Tree
  | .add line form => (tree.add line form).map Prod.snd
  | .setRoot id => tree.setRoot id
  | .setSibling previous next => tree.setSibling previous next
  | .appendSibling head statement => tree.appendSibling head statement
  | .setType id type => tree.setType id type

/-- A look at the tree that may find a fault in what is asked for. -/
def look (query : Tree → Except Fault α) : EStateM Fault Tree α := fun tree =>
  match query tree with
  | .ok value => .ok value tree
  | .error fault => .error fault tree

def link (previous next : NodeId) : EStateM Fault Tree Unit := do
  look (demand · .statement previous)
  look (demand · .statement next)
  let sequence ← look (siblings · next)
  if previous ∈ sequence then
    throw (.siblingCycle previous next)
  modify (update · previous fun node => { node with sibling := some next })

/-- An operation on the tree in place. -/
def perform : Operation → EStateM Fault Tree Unit
  | .add line form => do
      look (demandAll · form.parts)
      modify (push · line form)
  | .setRoot id => do
      look (demand · .statement id)
      modify fun tree => { tree with root := some id }
  | .setSibling previous next => link previous next
  | .appendSibling head statement => do
      let sequence ← look (siblings · head)
      link (sequence.getLastD head) statement
  | .setType id type => do
      let node ← look (node · id)
      if node.isStatement then
        throw (.typedStatement id node.line)
      modify (update · id fun node => { node with type := type })

/-- The tree in place is the new one, or after a fault the old one. -/
def settle (tree : Tree) : Except Fault Tree → EStateM.Result Fault Tree Unit
  | .ok after => .ok () after
  | .error fault => .error fault tree

theorem look_bind_apply (query : Tree → Except Fault α)
    (next : α → EStateM Fault Tree Unit) (tree : Tree) :
    (look query >>= next) tree =
      match query tree with
      | .ok value => next value tree
      | .error fault => .error fault tree := by
  rw [bind_apply]
  unfold look
  cases query tree <;> rfl

/-- To look and go on in place is to settle for what the look and the rest
give. -/
theorem look_bind_eq_settle {query : Tree → Except Fault α}
    {next : α → EStateM Fault Tree Unit} {tree : Tree}
    {result : α → Except Fault Tree}
    (hnext : ∀ value, next value tree = settle tree (result value)) :
    (look query >>= next) tree = settle tree (query tree >>= result) := by
  rw [look_bind_apply]
  cases query tree with
  | error fault => rfl
  | ok value => exact hnext value

theorem link_eq (tree : Tree) (previous next : NodeId) :
    link previous next tree = settle tree (tree.setSibling previous next) := by
  refine look_bind_eq_settle fun _ => look_bind_eq_settle fun _ =>
    look_bind_eq_settle fun sequence => ?_
  by_cases hmem : previous ∈ sequence
  · rw [if_pos hmem, if_pos hmem]
    rfl
  · rw [if_neg hmem, if_neg hmem]
    rfl

theorem perform_eq (tree : Tree) (operation : Operation) :
    operation.perform tree = settle tree (operation.apply tree) := by
  cases operation with
  | add line form =>
      have hadd : (tree.add line form).map Prod.snd =
          tree.demandAll form.parts >>= fun _ => .ok (tree.push line form) := by
        unfold Tree.add
        cases tree.demandAll form.parts <;> rfl
      rw [apply, hadd]
      exact look_bind_eq_settle fun _ => rfl
  | setRoot id => exact look_bind_eq_settle fun _ => rfl
  | setSibling previous next => exact link_eq tree previous next
  | appendSibling head statement =>
      exact look_bind_eq_settle fun _ => link_eq tree _ _
  | setType id type =>
      refine look_bind_eq_settle fun node => ?_
      by_cases hstatement : node.isStatement
      · rw [if_pos hstatement, if_pos hstatement]
        rfl
      · rw [if_neg hstatement, if_neg hstatement]
        rfl

theorem perform_eq_ok_iff {tree after : Tree} {operation : Operation} :
    operation.perform tree = .ok () after ↔
      operation.apply tree = .ok after := by
  rw [perform_eq]
  cases operation.apply tree with
  | ok changed => simp [settle]
  | error fault => simp [settle]

/-- An operation that fails leaves the tree as it was. -/
theorem perform_eq_error_iff {tree after : Tree} {operation : Operation}
    {fault : Fault} :
    operation.perform tree = .error fault after ↔
      operation.apply tree = .error fault ∧ after = tree := by
  rw [perform_eq]
  cases operation.apply tree with
  | ok changed => simp [settle]
  | error cause => simp [settle, eq_comm]

/-- The tree that an operation leaves in place, whether it fails or not. -/
def leave (tree : Tree) (operation : Operation) : Tree :=
  match operation.perform tree with
  | .ok _ after => after
  | .error _ after => after

theorem leave_eq (tree : Tree) (operation : Operation) :
    operation.apply tree = .ok (leave tree operation) ∨
      ∃ fault, operation.apply tree = .error fault ∧
        leave tree operation = tree := by
  unfold leave
  rw [perform_eq]
  cases operation.apply tree with
  | ok after => exact .inl rfl
  | error fault => exact .inr ⟨fault, rfl, rfl⟩

end Operation

/-- The tree that operations leave in place, one after the other. -/
def leaveAll (tree : Tree) (operations : List Operation) : Tree :=
  operations.foldl Operation.leave tree

/-- The tree after operations none of which fails. -/
def applyAll (tree : Tree) (operations : List Operation) : Except Fault Tree :=
  operations.foldlM Operation.apply tree

/-! ## What runs build -/

theorem Built.apply {tree after : Tree} {operation : Operation}
    (hbuilt : tree.Built) (happly : operation.apply tree = .ok after) :
    after.Built := by
  cases operation with
  | add line form =>
      obtain ⟨⟨id, grown⟩, hadd, rfl⟩ := except_map_eq_ok.mp happly
      exact .add hbuilt hadd
  | setRoot id => exact .setRoot hbuilt happly
  | setSibling previous next => exact .setSibling hbuilt happly
  | appendSibling head statement => exact .appendSibling hbuilt happly
  | setType id type => exact .setType hbuilt happly

theorem Built.leave {tree : Tree} (hbuilt : tree.Built)
    (operation : Operation) :
    (operation.leave tree).Built := by
  rcases operation.leave_eq tree with happly | ⟨fault, -, hsame⟩
  · exact hbuilt.apply happly
  · rw [hsame]
    exact hbuilt

theorem Built.leaveAll {tree : Tree} (hbuilt : tree.Built)
    (operations : List Operation) :
    (tree.leaveAll operations).Built := by
  induction operations generalizing tree with
  | nil => exact hbuilt
  | cons operation rest ih => exact ih (hbuilt.leave operation)

theorem applyAll_concat {tree middle : Tree} {operations : List Operation}
    (hrun : tree.applyAll operations = .ok middle) (operation : Operation) :
    tree.applyAll (operations ++ [operation]) = operation.apply middle := by
  unfold applyAll at hrun ⊢
  rw [List.foldlM_append, hrun]
  exact bind_pure (operation.apply middle)

theorem Built.applyAll {tree after : Tree} {operations : List Operation}
    (hbuilt : tree.Built) (hrun : tree.applyAll operations = .ok after) :
    after.Built := by
  induction operations generalizing tree with
  | nil =>
      obtain rfl := Except.ok.inj hrun
      exact hbuilt
  | cons operation rest ih =>
      obtain ⟨middle, happly, hrest⟩ := except_bind_eq_ok.mp hrun
      exact ih (hbuilt.apply happly) hrest

/-- The built trees are those that operations without a fault make of the empty
one. -/
theorem built_iff_applyAll {tree : Tree} :
    tree.Built ↔ ∃ operations, Tree.empty.applyAll operations = .ok tree := by
  constructor
  · intro hbuilt
    have hstep : ∀ {before after : Tree} (operation : Operation),
        (∃ operations, Tree.empty.applyAll operations = .ok before) →
          operation.apply before = .ok after →
            ∃ operations, Tree.empty.applyAll operations = .ok after := by
      rintro before after operation ⟨operations, hrun⟩ happly
      exact ⟨_, (applyAll_concat hrun operation).trans happly⟩
    induction hbuilt with
    | empty => exact ⟨[], rfl⟩
    | @add _ _ line form _ _ hadd ih =>
        exact hstep (.add line form) ih (except_map_eq_ok.mpr ⟨_, hadd, rfl⟩)
    | setRoot _ hroot ih => exact hstep (.setRoot _) ih hroot
    | setSibling _ hlink ih => exact hstep (.setSibling _ _) ih hlink
    | appendSibling _ happend ih => exact hstep (.appendSibling _ _) ih happend
    | setType _ htype ih => exact hstep (.setType _ _) ih htype
  · rintro ⟨operations, hrun⟩
    exact Built.empty.applyAll hrun

/-! ## What a run keeps -/

theorem Keeps.refl (tree : Tree) : Keeps tree tree :=
  fun _ node hnode => ⟨node, hnode, rfl, rfl⟩

theorem Keeps.trans {before middle after : Tree} (hfirst : Keeps before middle)
    (hsecond : Keeps middle after) : Keeps before after := by
  intro id node hnode
  obtain ⟨same, hsame, hform, hline⟩ := hfirst id node hnode
  obtain ⟨kept, hkept, hsameForm, hsameLine⟩ := hsecond id same hsame
  exact ⟨kept, hkept, hsameForm.trans hform, hsameLine.trans hline⟩

theorem Operation.apply_keeps {tree after : Tree} {operation : Operation}
    (happly : operation.apply tree = .ok after) : Keeps tree after := by
  have hlink : ∀ {previous next}, tree.setSibling previous next = .ok after →
      Keeps tree after := by
    intro previous next hlink
    obtain ⟨-, -, -, rfl⟩ := setSibling_eq_ok_iff.mp hlink
    exact keeps_update tree previous _ (fun _ => rfl) (fun _ => rfl)
  cases operation with
  | add line form =>
      obtain ⟨⟨id, grown⟩, hadd, rfl⟩ := except_map_eq_ok.mp happly
      obtain ⟨-, -, rfl⟩ := add_eq_ok_iff.mp hadd
      exact keeps_push tree line form
  | setRoot id =>
      obtain ⟨-, rfl⟩ := setRoot_eq_ok_iff.mp happly
      exact fun _ node hnode => ⟨node, hnode, rfl, rfl⟩
  | setSibling previous next => exact hlink happly
  | appendSibling head statement =>
      obtain ⟨last, happend⟩ := appendSibling_eq_ok happly
      exact hlink happend
  | setType id type =>
      obtain ⟨-, rfl⟩ := setType_eq_ok_iff.mp happly
      exact keeps_update tree id _ (fun _ => rfl) (fun _ => rfl)

theorem Operation.leave_keeps (tree : Tree) (operation : Operation) :
    Keeps tree (leave tree operation) := by
  rcases operation.leave_eq tree with happly | ⟨fault, -, hsame⟩
  · exact apply_keeps happly
  · rw [hsame]
    exact .refl tree

theorem leaveAll_keeps (tree : Tree) (operations : List Operation) :
    Keeps tree (tree.leaveAll operations) := by
  induction operations generalizing tree with
  | nil => exact .refl tree
  | cons operation rest ih => exact (operation.leave_keeps tree).trans (ih _)

end Tree
end TinyCompiler
