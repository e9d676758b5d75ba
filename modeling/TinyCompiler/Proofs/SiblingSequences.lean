import Mathlib.Data.List.Nodup
import Mathlib.Data.List.Perm.Subperm
import Mathlib.Data.List.Range
import TinyCompiler.Proofs.TreeInvariant

/-!
# Sequences in a tree

The sequence that starts at a node of a built tree ends and meets no node twice.
A sibling link is only set where the sequence behind it does not hold the node
in front of it, so setting it leaves that sequence alone, and every sequence
that comes to the node in front goes on with it.
-/

namespace TinyCompiler
namespace Tree

/-- The nodes from one of them to the end of its sequence. -/
inductive Sequel (tree : Tree) : NodeId → List NodeId → Prop where
  | last {id : NodeId} {node : Node} :
      tree.get? id = some node → node.sibling = none → Sequel tree id [id]
  | next {id next : NodeId} {node : Node} {rest : List NodeId} :
      tree.get? id = some node → node.sibling = some next →
        Sequel tree next rest →
        Sequel tree id (id :: rest)

namespace Sequel

variable {tree : Tree} {head id : NodeId} {sequence other : List NodeId}

theorem unique (hsequence : tree.Sequel head sequence)
    (hother : tree.Sequel head other) :
    sequence = other := by
  induction hsequence generalizing other with
  | last hnode hend =>
      cases hother with
      | last => rfl
      | next hsame hnext =>
          obtain rfl := Option.some.inj (hnode.symm.trans hsame)
          rw [hend] at hnext
          contradiction
  | next hnode hnext _ ih =>
      cases hother with
      | last hsame hend =>
          obtain rfl := Option.some.inj (hnode.symm.trans hsame)
          rw [hend] at hnext
          contradiction
      | next hsame hagain hrest =>
          obtain rfl := Option.some.inj (hnode.symm.trans hsame)
          obtain rfl := Option.some.inj (hnext.symm.trans hagain)
          rw [ih hrest]

theorem head_mem (hsequence : tree.Sequel head sequence) : head ∈ sequence := by
  cases hsequence with
  | last => exact List.mem_cons_self
  | next => exact List.mem_cons_self

theorem lt_size (hsequence : tree.Sequel head sequence) (hid : id ∈ sequence) :
    id < tree.size := by
  induction hsequence with
  | last hnode _ =>
      obtain rfl := List.mem_singleton.mp hid
      exact get?_eq_some_lt hnode
  | next hnode _ _ ih =>
      rcases List.mem_cons.mp hid with rfl | hid
      · exact get?_eq_some_lt hnode
      · exact ih hid

/-- From each of its nodes on, a sequence is the one of that node. -/
theorem suffix_of_mem (hsequence : tree.Sequel head sequence)
    (hid : id ∈ sequence) :
    ∃ behind, tree.Sequel id behind ∧ behind <:+ sequence := by
  induction hsequence with
  | last hnode hend =>
      obtain rfl := List.mem_singleton.mp hid
      exact ⟨_, .last hnode hend, List.suffix_rfl⟩
  | next hnode hnext hrest ih =>
      rcases List.mem_cons.mp hid with rfl | hid
      · exact ⟨_, .next hnode hnext hrest, List.suffix_rfl⟩
      · obtain ⟨behind, hbehind, hsuffix⟩ := ih hid
        exact ⟨behind, hbehind, hsuffix.trans (List.suffix_cons _ _)⟩

/-- A node that were met again would start two sequences of different
lengths. -/
theorem nodup (hsequence : tree.Sequel head sequence) : sequence.Nodup := by
  induction hsequence with
  | last => exact List.nodup_singleton _
  | @next id next node rest hnode hnext hrest ih =>
      refine List.nodup_cons.mpr ⟨?_, ih⟩
      intro hagain
      obtain ⟨behind, hbehind, hsuffix⟩ := hrest.suffix_of_mem hagain
      obtain rfl := (Sequel.next hnode hnext hrest).unique hbehind
      exact absurd hsuffix.length_le (Nat.not_succ_le_self _)

theorem length_le_size (hsequence : tree.Sequel head sequence) :
    sequence.length ≤ tree.size := by
  have hsubset : sequence ⊆ List.range tree.size :=
    fun id hid => List.mem_range.mpr (hsequence.lt_size hid)
  calc sequence.length ≤ (List.range tree.size).length :=
        (List.Nodup.subperm hsequence.nodup hsubset).length_le
    _ = tree.size := List.length_range

/-- In a tree with the same links at the nodes of the sequence it is the
same. -/
theorem kept {after : Tree} (hsequence : tree.Sequel head sequence)
    (hkept : ∀ id ∈ sequence, ∀ node, tree.get? id = some node →
      ∃ same, after.get? id = some same ∧ same.sibling = node.sibling) :
    after.Sequel head sequence := by
  induction hsequence with
  | last hnode hend =>
      obtain ⟨same, hsame, hsibling⟩ :=
        hkept _ (List.mem_singleton_self _) _ hnode
      exact .last hsame (hsibling.trans hend)
  | next hnode hnext _ ih =>
      obtain ⟨same, hsame, hsibling⟩ := hkept _ List.mem_cons_self _ hnode
      exact .next hsame (hsibling.trans hnext)
        (ih fun id hid => hkept id (List.mem_cons_of_mem _ hid))

end Sequel

theorem chain_eq_ok_iff {tree : Tree} {bound : Nat} {head : NodeId}
    {sequence : List NodeId} :
    tree.chain bound head = .ok sequence ↔
      tree.Sequel head sequence ∧ sequence.length ≤ bound := by
  induction bound generalizing head sequence with
  | zero =>
      have hlong : tree.Sequel head sequence → ¬ sequence.length ≤ 0 := by
        rintro (_ | _) <;> simp
      simpa [chain] using hlong
  | succ bound ih =>
      rw [chain, except_bind_eq_ok]
      simp only [node_eq_ok_iff]
      constructor
      · rintro ⟨node, hnode, hchain⟩
        cases hsibling : node.sibling with
        | none =>
            rw [hsibling] at hchain
            obtain rfl := Except.ok.inj hchain
            exact ⟨.last hnode hsibling, Nat.le_add_left 1 bound⟩
        | some next =>
            rw [hsibling] at hchain
            obtain ⟨rest, hrest, hchain⟩ := except_bind_eq_ok.mp hchain
            obtain rfl := Except.ok.inj hchain
            obtain ⟨hsequel, hlength⟩ := ih.mp hrest
            exact ⟨.next hnode hsibling hsequel, Nat.succ_le_succ hlength⟩
      · rintro ⟨hsequel, hlength⟩
        cases hsequel with
        | last hnode hend =>
            refine ⟨_, hnode, ?_⟩
            rw [hend]
            rfl
        | next hnode hnext hrest =>
            refine ⟨_, hnode, ?_⟩
            rw [hnext]
            exact except_bind_eq_ok.mpr
              ⟨_, ih.mpr ⟨hrest, Nat.le_of_succ_le_succ hlength⟩, rfl⟩

theorem siblings_eq_ok_iff {tree : Tree} {head : NodeId}
    {sequence : List NodeId} :
    tree.siblings head = .ok sequence ↔ tree.Sequel head sequence := by
  unfold siblings
  rw [chain_eq_ok_iff]
  exact ⟨And.left,
    fun hsequel => ⟨hsequel, Nat.le_succ_of_le hsequel.length_le_size⟩⟩

/-! ## Sequences that end -/

/-- Every node starts a sequence that ends. -/
def SequencesEnd (tree : Tree) : Prop :=
  ∀ id < tree.size, ∃ sequence, tree.Sequel id sequence

theorem empty_sequencesEnd : SequencesEnd Tree.empty :=
  fun id hid => absurd hid (Nat.not_lt_zero id)

theorem SequencesEnd.push {tree : Tree} (hends : tree.SequencesEnd) (line : Nat)
    (form : Form) :
    (tree.push line form).SequencesEnd := by
  have hold : ∀ id node, tree.get? id = some node →
      (tree.push line form).get? id = some node := by
    intro id node hnode
    rw [get?_push, if_neg (Nat.ne_of_lt (get?_eq_some_lt hnode)), hnode]
  intro id hid
  by_cases hnew : id = tree.size
  · have hnode : (tree.push line form).get? id =
        some (Node.fresh line form) := by
      rw [get?_push, if_pos hnew]
    exact ⟨[id], .last hnode rfl⟩
  · have hlt : id < tree.size := by
      simp only [Tree.push, size, Array.size_push] at hid hnew ⊢
      omega
    obtain ⟨sequence, hsequence⟩ := hends id hlt
    exact ⟨sequence, hsequence.kept fun other _ node hnode =>
      ⟨node, hold other node hnode, rfl⟩⟩

@[simp] theorem size_update (tree : Tree) (id : NodeId) (change : Node → Node) :
    (tree.update id change).size = tree.size := by
  simp [update, size]

theorem SequencesEnd.setSibling {tree after : Tree} {previous next : NodeId}
    (hends : tree.SequencesEnd)
    (hlink : tree.setSibling previous next = .ok after) :
    after.SequencesEnd := by
  obtain ⟨⟨node, hnode, -⟩, -, ⟨behind, hbehind, hfree⟩, hafter⟩ :=
    setSibling_eq_ok_iff.mp hlink
  have hkept : ∀ id, previous ≠ id → ∀ node, tree.get? id = some node →
      ∃ same, after.get? id = some same ∧ same.sibling = node.sibling := by
    intro id hid node hnode
    exact ⟨node, by rw [hafter, get?_update, if_neg hid, hnode], rfl⟩
  have hnext : after.Sequel next behind :=
    (siblings_eq_ok_iff.mp hbehind).kept fun id hid =>
      hkept id fun hsame => hfree (hsame ▸ hid)
  have hprevious : after.Sequel previous (previous :: behind) :=
    .next (by rw [hafter, get?_update, if_pos rfl, hnode]; rfl) rfl hnext
  intro id hid
  rw [hafter, size_update] at hid
  obtain ⟨sequence, hsequence⟩ := hends id hid
  -- The old sequence goes on as before until it comes to the node in front of
  -- the link.
  induction hsequence with
  | @last id node hnode hend =>
      by_cases hsame : previous = id
      · exact ⟨_, hsame ▸ hprevious⟩
      · obtain ⟨same, hget, hsibling⟩ := hkept id hsame node hnode
        exact ⟨_, .last hget (hsibling.trans hend)⟩
  | @next id other node rest hnode hother hrest ih =>
      by_cases hsame : previous = id
      · exact ⟨_, hsame ▸ hprevious⟩
      · obtain ⟨same, hget, hsibling⟩ := hkept id hsame node hnode
        obtain ⟨sequel, hsequel⟩ := ih (hrest.lt_size hrest.head_mem)
        exact ⟨_, .next hget (hsibling.trans hother) hsequel⟩

theorem SequencesEnd.setType {tree after : Tree} {id : NodeId}
    {type : ValueType} (hends : tree.SequencesEnd)
    (htype : tree.setType id type = .ok after) :
    after.SequencesEnd := by
  obtain ⟨-, rfl⟩ := setType_eq_ok_iff.mp htype
  intro head hhead
  rw [size_update] at hhead
  obtain ⟨sequence, hsequence⟩ := hends head hhead
  refine ⟨sequence, hsequence.kept fun other _ node hnode => ?_⟩
  by_cases hsame : id = other
  · exact ⟨{ node with type := type },
      by rw [get?_update, if_pos hsame, hnode]; rfl, rfl⟩
  · exact ⟨node, by rw [get?_update, if_neg hsame, hnode], rfl⟩

theorem Built.sequencesEnd {tree : Tree} (hbuilt : tree.Built) :
    tree.SequencesEnd := by
  induction hbuilt with
  | empty => exact empty_sequencesEnd
  | add _ hadd ih =>
      obtain ⟨-, -, rfl⟩ := add_eq_ok_iff.mp hadd
      exact ih.push _ _
  | setRoot _ hroot ih =>
      obtain ⟨-, rfl⟩ := setRoot_eq_ok_iff.mp hroot
      intro id hid
      obtain ⟨sequence, hsequence⟩ := ih id hid
      exact ⟨sequence,
        hsequence.kept fun other _ node hnode => ⟨node, hnode, rfl⟩⟩
  | setSibling _ hlink ih => exact ih.setSibling hlink
  | appendSibling _ happend ih =>
      obtain ⟨last, hlink⟩ := appendSibling_eq_ok happend
      exact ih.setSibling hlink
  | setType _ htype ih => exact ih.setType htype

end Tree
end TinyCompiler
