import TinyCompiler.Proofs.TreeOperations

/-!
# Joined sequences

Sequences that meet have all nodes behind the meeting in common, and so the last
one.  Appending a statement links the last node of a sequence to the sequence of
the statement: it is refused exactly if the two have met already, and otherwise
it is all sequences with that last node that go on, whichever of them was named.
-/

namespace TinyCompiler
namespace Tree

/-! ## Sequences that meet -/

namespace Sequel

variable {tree : Tree} {head other id last next : NodeId}
  {sequence others behind : List NodeId}

theorem ne_nil (hsequence : tree.Sequel head sequence) : sequence ≠ [] :=
  List.ne_nil_of_mem hsequence.head_mem

theorem getLast?_of_suffix (hbehind : behind ≠ [])
    (hsuffix : behind <:+ sequence) :
    sequence.getLast? = behind.getLast? := by
  obtain ⟨before, rfl⟩ := hsuffix
  exact List.getLast?_append_of_ne_nil before hbehind

/-- Two sequences meet if and only if the one has the last node of the other. -/
theorem meets_iff (hsequence : tree.Sequel head sequence)
    (hothers : tree.Sequel other others)
    (hlast : sequence.getLast? = some last) :
    (∃ id ∈ sequence, id ∈ others) ↔ last ∈ others := by
  constructor
  · rintro ⟨id, hid, hother⟩
    obtain ⟨behind, hbehind, hsuffix⟩ := hsequence.suffix_of_mem hid
    obtain ⟨same, hsame, hotherSuffix⟩ := hothers.suffix_of_mem hother
    obtain rfl := hbehind.unique hsame
    rw [getLast?_of_suffix hbehind.ne_nil hsuffix] at hlast
    exact hotherSuffix.subset (List.mem_of_getLast? hlast)
  · exact fun hmem => ⟨last, List.mem_of_getLast? hlast, hmem⟩

/-- The last node of a sequence has no link. -/
theorem last_sibling (hsequence : tree.Sequel head sequence)
    (hlast : sequence.getLast? = some last) :
    ∃ node, tree.get? last = some node ∧ node.sibling = none := by
  induction hsequence with
  | last hnode hend =>
      obtain rfl := Option.some.inj hlast
      exact ⟨_, hnode, hend⟩
  | next _ _ hrest ih =>
      exact ih (hlast ▸
        (getLast?_of_suffix hrest.ne_nil (List.suffix_cons _ _)).symm)

/-- All nodes of a sequence that starts with a statement are statements. -/
theorem holds (hsequence : tree.Sequel head sequence) (hgood : tree.WellFormed)
    (hhead : tree.Holds .statement head) :
    ∀ id ∈ sequence, tree.Holds .statement id := by
  induction hsequence with
  | last => exact List.forall_mem_singleton.mpr hhead
  | next hnode hnext _ ih =>
      exact List.forall_mem_cons.mpr
        ⟨hhead, ih (hgood.siblings _ _ _ hnode hnext).2⟩

/-! ## Sequences after a link is set -/

/-- A sequence without a node is not affected by a change to that node. -/
theorem update_of_not_mem (hsequence : tree.Sequel head sequence)
    (hfree : last ∉ sequence) (change : Node → Node) :
    (tree.update last change).Sequel head sequence := by
  refine hsequence.kept fun id hid node hnode => ⟨node, ?_, rfl⟩
  have hother : last ≠ id := by
    rintro rfl
    exact hfree hid
  rw [get?_update, if_neg hother, hnode]

/-- A sequence that ends at a node goes on behind it once the node has a
link. -/
theorem update_of_mem (hsequence : tree.Sequel head sequence)
    (hmem : last ∈ sequence)
    {node : Node} (hnode : tree.get? last = some node)
    (hend : node.sibling = none)
    (hbehind : (tree.update last fun node =>
      { node with sibling := some next }).Sequel next
      behind) :
    (tree.update last fun node =>
      { node with sibling := some next }).Sequel head
      (sequence ++ behind) := by
  induction hsequence with
  | @last id _ _ _ =>
      obtain rfl := List.mem_singleton.mp hmem
      exact .next (by rw [get?_update, if_pos rfl, hnode]; rfl) rfl hbehind
  | @next id following other rest hother hfollowing _ ih =>
      have hid : last ≠ id := by
        rintro rfl
        obtain rfl := Option.some.inj (hnode.symm.trans hother)
        rw [hend] at hfollowing
        contradiction
      have hrest := (List.mem_cons.mp hmem).resolve_left hid
      exact .next (by rw [get?_update, if_neg hid, hother])
        hfollowing (ih hrest)

end Sequel

/-! ## Appending -/

section Appending

variable {tree : Tree} {head statement previous next last : NodeId}
  {front behind : List NodeId}

theorem setSibling_eq (hprevious : tree.Holds .statement previous)
    (hnext : tree.Holds .statement next) (hbehind : tree.Sequel next behind) :
    tree.setSibling previous next =
      if previous ∈ behind then .error (.siblingCycle previous next)
      else .ok (tree.update previous fun node =>
        { node with sibling := some next }) := by
  unfold setSibling
  rw [except_bind_of_ok (demand_eq_ok_iff.mpr hprevious),
    except_bind_of_ok (demand_eq_ok_iff.mpr hnext),
    except_bind_of_ok (siblings_eq_ok_iff.mpr hbehind)]
  rfl

theorem appendSibling_eq (hfront : tree.Sequel head front)
    (hlast : front.getLast? = some last) :
    tree.appendSibling head statement = tree.setSibling last statement := by
  unfold appendSibling
  rw [except_bind_of_ok (siblings_eq_ok_iff.mpr hfront),
    List.getLastD_eq_getLast?, hlast]
  rfl

/-- What comes of linking the last node of the sequence `front` to a statement
with the sequence `behind`: every sequence that met `front` goes on with
`behind`, no other one changes, and nothing is written but the one link. -/
structure Joins (tree after : Tree) (head statement : NodeId)
    (front behind : List NodeId) : Prop where
  whole : after.siblings head = .ok (front ++ behind)
  sequences : ∀ id < tree.size, ∃ sequence, tree.siblings id = .ok sequence ∧
    after.siblings id =
      .ok (if ∃ shared ∈ sequence, shared ∈ front then sequence ++ behind
        else sequence)
  link : ∃ last, front.getLast? = some last ∧
    after = tree.update last fun node => { node with sibling := some statement }

theorem SequencesEnd.joins (hends : tree.SequencesEnd)
    (hfront : tree.Sequel head front) (hbehind : tree.Sequel statement behind)
    (hlast : front.getLast? = some last) (hfree : last ∉ behind) :
    Joins tree (tree.update last fun node =>
      { node with sibling := some statement }) head
      statement front behind := by
  obtain ⟨node, hnode, hend⟩ := hfront.last_sibling hlast
  have hkept := hbehind.update_of_not_mem hfree
    fun node => { node with sibling := some statement }
  refine ⟨?whole, fun id hid => ?sequences, last, hlast, rfl⟩
  case whole =>
    exact siblings_eq_ok_iff.mpr
      (hfront.update_of_mem (List.mem_of_getLast? hlast) hnode hend hkept)
  case sequences =>
    obtain ⟨sequence, hsequence⟩ := hends id hid
    refine ⟨sequence, siblings_eq_ok_iff.mpr hsequence,
      siblings_eq_ok_iff.mpr ?_⟩
    have hmeets : (∃ shared ∈ sequence, shared ∈ front) ↔ last ∈ sequence := by
      rw [← hfront.meets_iff hsequence hlast]
      simp only [and_comm]
    by_cases hmem : last ∈ sequence
    · rw [if_pos (hmeets.mpr hmem)]
      exact hsequence.update_of_mem hmem hnode hend hkept
    · rw [if_neg (hmeets.not.mpr hmem)]
      exact hsequence.update_of_not_mem hmem _

end Appending

/-- Appending a statement to the sequence of another succeeds if and only if
their sequences have no node in common, and then joins them.  Otherwise the link
from the last node of the one to the statement is refused and the tree stays as
it was. -/
theorem appending_joins_sequences (tree : Tree) (head statement : NodeId)
    (hbuilt : tree.Built) (hhead : tree.Holds .statement head)
    (hstatement : tree.Holds .statement statement) :
    ∃ front behind,
      tree.siblings head = .ok front ∧ tree.siblings statement = .ok behind ∧
      ((∃ after, tree.appendSibling head statement = .ok after) ↔ ∀ id ∈ front,
        id ∉ behind) ∧
      ((∃ id ∈ front, id ∈ behind) → ∃ last, front.getLast? = some last ∧
        tree.appendSibling head statement =
          .error (.siblingCycle last statement) ∧
        Operation.perform (.appendSibling head statement) tree =
          .error (.siblingCycle last statement) tree) ∧
      ∀ after, tree.appendSibling head statement = .ok after →
        Joins tree after head statement front behind := by
  have hends := hbuilt.sequencesEnd
  obtain ⟨front, hfront⟩ := hends head hhead.lt_size
  obtain ⟨behind, hbehind⟩ := hends statement hstatement.lt_size
  obtain ⟨last, hlast⟩ : ∃ last, front.getLast? = some last :=
    ⟨_, List.getLast?_eq_some_getLast hfront.ne_nil⟩
  have hholds :=
    hfront.holds hbuilt.wellFormed hhead last (List.mem_of_getLast? hlast)
  have hmeets := hfront.meets_iff hbehind hlast
  have happend : tree.appendSibling head statement =
      if last ∈ behind then .error (.siblingCycle last statement)
      else .ok (tree.update last fun node =>
        { node with sibling := some statement }) := by
    rw [appendSibling_eq hfront hlast, setSibling_eq hholds hstatement hbehind]
  refine ⟨front, behind, siblings_eq_ok_iff.mpr hfront,
    siblings_eq_ok_iff.mpr hbehind, ?success, ?failure, ?effect⟩
  case success =>
    have hapart : (∀ id ∈ front, id ∉ behind) ↔ last ∉ behind := by
      rw [← hmeets]
      push Not
      rfl
    rw [happend, hapart]
    by_cases hmem : last ∈ behind <;> simp [hmem]
  case failure =>
    intro hshared
    rw [if_pos (hmeets.mp hshared)] at happend
    exact ⟨last, hlast, happend,
      Operation.perform_eq_error_iff.mpr ⟨happend, rfl⟩⟩
  case effect =>
    intro after hafter
    rw [happend] at hafter
    by_cases hmem : last ∈ behind
    · rw [if_pos hmem] at hafter
      contradiction
    · rw [if_neg hmem] at hafter
      obtain rfl := Except.ok.inj hafter
      exact hends.joins hfront hbehind hlast hmem

/-- Two statements before a third, and a fourth one that is alone. -/
def forkedReads : Tree where
  nodes := #[⟨.read "a", 1, some 2, .void⟩, ⟨.read "b", 2, some 2, .void⟩,
    ⟨.read "c", 3, none, .void⟩, ⟨.read "d", 4, none, .void⟩]
  root := none

def forkReads : List Operation :=
  [.add 1 (.read "a"), .add 2 (.read "b"), .add 3 (.read "c"),
    .add 4 (.read "d"), .setSibling 0 2, .setSibling 1 2]

theorem forkedReads_joined :
    (∃ after, forkedReads.appendSibling 0 3 = .ok after ∧
      after.siblings 0 = .ok [0, 2, 3] ∧ after.siblings 1 = .ok [1, 2, 3] ∧
      after.siblings 3 = .ok [3]) ∧
    Operation.perform (.appendSibling 0 1) forkedReads =
      .error (.siblingCycle 2 1) forkedReads := by
  have hrun : Tree.empty.applyAll forkReads = .ok forkedReads := by
    decide +kernel
  have hbuilt : forkedReads.Built := Built.empty.applyAll hrun
  have hfirst : forkedReads.Holds .statement 0 := ⟨_, rfl, rfl⟩
  constructor
  · obtain ⟨front, behind, hfront, hbehind, hsuccess, -, heffect⟩ :=
      appending_joins_sequences _ 0 3 hbuilt hfirst ⟨_, rfl, rfl⟩
    obtain rfl : [0, 2] = front := Except.ok.inj hfront
    obtain rfl : [3] = behind := Except.ok.inj hbehind
    obtain ⟨after, hafter⟩ := hsuccess.mpr (by decide)
    obtain ⟨hwhole, hsequences, -⟩ := heffect after hafter
    obtain ⟨second, hsecond, hjoined⟩ := hsequences 1 (by decide)
    obtain ⟨last, hlast, hkept⟩ := hsequences 3 (by decide)
    obtain rfl : [1, 2] = second := Except.ok.inj hsecond
    obtain rfl : [3] = last := Except.ok.inj hlast
    exact ⟨after, hafter, hwhole, hjoined, hkept⟩
  · obtain ⟨front, behind, hfront, hbehind, -, hfailure, -⟩ :=
      appending_joins_sequences _ 0 1 hbuilt hfirst ⟨_, rfl, rfl⟩
    obtain rfl : [0, 2] = front := Except.ok.inj hfront
    obtain rfl : [1, 2] = behind := Except.ok.inj hbehind
    obtain ⟨last, hlast, -, hperform⟩ := hfailure ⟨2, by decide, by decide⟩
    obtain rfl := Option.some.inj hlast
    exact hperform

end Tree
end TinyCompiler
