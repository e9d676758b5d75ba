import TinyCompiler.Proofs.ArenaInvariant

/-!
# How links come to run in a cycle

Parts are older than what they are parts of and a sequence ends, so a cycle in a
built tree has links of both kinds.  Such cycles can be built.  A sibling link
is refused if the sequence behind it comes back, but not if a node of that
sequence has the node in front among its parts, at whatever depth.  The link
that closes a cycle is always a sibling link to a node from which some path
leads back, and operations that set no such link keep a tree free of cycles.
-/

namespace TinyCompiler
namespace Tree

def PartLink (tree : Tree) (id next : NodeId) : Prop :=
  ∃ node, tree.get? id = some node ∧ next ∈ node.form.children

def SiblingLink (tree : Tree) (id next : NodeId) : Prop :=
  ∃ node, tree.get? id = some node ∧ node.sibling = some next

theorem link_iff {tree : Tree} {id next : NodeId} :
    tree.Link id next ↔ tree.PartLink id next ∨ tree.SiblingLink id next := by
  unfold Link PartLink SiblingLink
  rw [← exists_or]
  exact exists_congr fun node => and_or_left

/-! ## Links of one kind -/

theorem WellFormed.part_lt {tree : Tree} (hgood : tree.WellFormed)
    {id next : NodeId} (hlink : tree.PartLink id next) : next < id := by
  obtain ⟨node, hnode, hchild⟩ := hlink
  obtain ⟨part, hpart, rfl⟩ := List.mem_map.mp hchild
  exact (hgood.parts id node hnode part hpart).1

theorem WellFormed.part_path_lt {tree : Tree} (hgood : tree.WellFormed)
    {id next : NodeId} (hpath : Relation.TransGen tree.PartLink id next) :
    next < id := by
  induction hpath with
  | single hlink => exact hgood.part_lt hlink
  | tail _ hlink ih => exact (hgood.part_lt hlink).trans ih

theorem Sequel.siblingLink {tree : Tree} {id next : NodeId}
    {sequence : List NodeId} (hsequence : tree.Sequel id sequence)
    (hlink : tree.SiblingLink id next) :
    ∃ rest, sequence = id :: rest ∧ tree.Sequel next rest := by
  obtain ⟨node, hnode, hnext⟩ := hlink
  cases hsequence with
  | last hsame hend =>
      obtain rfl := Option.some.inj (hnode.symm.trans hsame)
      rw [hend] at hnext
      contradiction
  | next hsame hother hrest =>
      obtain rfl := Option.some.inj (hnode.symm.trans hsame)
      obtain rfl := Option.some.inj (hnext.symm.trans hother)
      exact ⟨_, rfl, hrest⟩

theorem Sequel.sibling_path {tree : Tree} {id next : NodeId}
    {sequence : List NodeId} (hsequence : tree.Sequel id sequence)
    (hpath : Relation.TransGen tree.SiblingLink id next) :
    ∃ behind, tree.Sequel next behind ∧ behind.length < sequence.length := by
  induction hpath with
  | single hlink =>
      obtain ⟨rest, rfl, hrest⟩ := hsequence.siblingLink hlink
      exact ⟨rest, hrest, Nat.lt_succ_self _⟩
  | tail _ hlink ih =>
      obtain ⟨behind, hbehind, hlength⟩ := ih
      obtain ⟨rest, rfl, hrest⟩ := hbehind.siblingLink hlink
      exact ⟨rest, hrest, (Nat.lt_succ_self _).trans hlength⟩

theorem Built.no_sibling_cycle {tree : Tree} (hbuilt : tree.Built)
    (id : NodeId) :
    ¬ Relation.TransGen tree.SiblingLink id id := by
  intro hcycle
  obtain ⟨next, ⟨node, hnode, -⟩, -⟩ := Relation.TransGen.head'_iff.mp hcycle
  obtain ⟨sequence, hsequence⟩ := hbuilt.sequencesEnd id (get?_eq_some_lt hnode)
  obtain ⟨behind, hbehind, hlength⟩ := hsequence.sibling_path hcycle
  rw [hsequence.unique hbehind] at hlength
  exact Nat.lt_irrefl _ hlength

/-! ## A new node and a new type -/

theorem WellFormed.link_lt_size {tree : Tree} (hgood : tree.WellFormed)
    {id next : NodeId} (hlink : tree.Link id next) : next < tree.size := by
  rcases link_iff.mp hlink with hpart | ⟨node, hnode, hsibling⟩
  · exact (hgood.part_lt hpart).trans hlink.lt_size
  · exact (hgood.siblings id node next hnode hsibling).2.lt_size

theorem link_of_push {tree : Tree} {line : Nat} {form : Form} {id next : NodeId}
    (hid : id ≠ tree.size) (hlink : (tree.push line form).Link id next) :
    tree.Link id next := by
  obtain ⟨node, hnode, hcase⟩ := hlink
  rw [get?_push, if_neg hid] at hnode
  exact ⟨node, hnode, hcase⟩

/-- No link leads to the new node, so it is on no cycle. -/
theorem Acyclic.push {tree : Tree} (hacyclic : tree.Acyclic)
    (hgood : tree.WellFormed) (line : Nat) {form : Form}
    (hparts : ∀ part ∈ form.parts, tree.Holds part.1 part.2) :
    (tree.push line form).Acyclic := by
  have hback : ∀ {id next},
      (tree.push line form).Link id next → next < tree.size := by
    rintro id next ⟨node, hnode, hcase⟩
    rw [get?_push] at hnode
    by_cases hid : id = tree.size
    · rw [if_pos hid] at hnode
      obtain rfl := Option.some.inj hnode
      rcases hcase with hchild | hsibling
      · obtain ⟨part, hpart, rfl⟩ := List.mem_map.mp hchild
        exact (hparts part hpart).lt_size
      · contradiction
    · rw [if_neg hid] at hnode
      exact hgood.link_lt_size ⟨node, hnode, hcase⟩
  have hpath : ∀ {id next},
      Relation.TransGen (tree.push line form).Link id next →
      id < tree.size → Relation.TransGen tree.Link id next := by
    intro id next hpath
    induction hpath using Relation.TransGen.head_induction_on with
    | single hlink =>
        exact fun hid => .single (link_of_push (Nat.ne_of_lt hid) hlink)
    | head hlink _ ih =>
        exact fun hid =>
          .head (link_of_push (Nat.ne_of_lt hid) hlink) (ih (hback hlink))
  intro id hcycle
  obtain ⟨last, -, hlink⟩ := Relation.TransGen.tail'_iff.mp hcycle
  exact hacyclic id (hpath hcycle (hback hlink))

theorem Acyclic.setType {tree after : Tree} {id : NodeId} {type : ValueType}
    (hacyclic : tree.Acyclic) (htype : tree.setType id type = .ok after) :
    after.Acyclic := by
  obtain ⟨-, rfl⟩ := setType_eq_ok_iff.mp htype
  have hold : ∀ first second,
      (tree.update id fun node => { node with type := type }).Link
      first second → tree.Link first second := by
    rintro first second ⟨changed, hchanged, hcase⟩
    rw [get?_update] at hchanged
    split at hchanged
    · obtain ⟨node, hnode, rfl⟩ := Option.map_eq_some_iff.mp hchanged
      exact ⟨node, hnode, hcase⟩
    · exact ⟨changed, hchanged, hcase⟩
  exact fun other hcycle =>
    hacyclic other (Relation.TransGen.mono hold other other hcycle)

/-! ## A new sibling link -/

section SetSibling

variable {tree after : Tree} {previous next id other : NodeId}

theorem link_of_setSibling (hlink : tree.setSibling previous next = .ok after)
    (hafter : after.Link id other) :
    tree.Link id other ∨ id = previous ∧ other = next := by
  obtain ⟨-, -, -, rfl⟩ := setSibling_eq_ok_iff.mp hlink
  obtain ⟨changed, hchanged, hcase⟩ := hafter
  rw [get?_update] at hchanged
  by_cases hid : previous = id
  · rw [if_pos hid] at hchanged
    obtain ⟨node, hnode, rfl⟩ := Option.map_eq_some_iff.mp hchanged
    rcases hcase with hchild | hsibling
    · exact .inl ⟨node, hnode, .inl hchild⟩
    · exact .inr ⟨hid.symm, (Option.some.inj hsibling).symm⟩
  · rw [if_neg hid] at hchanged
    exact .inl ⟨changed, hchanged, hcase⟩

theorem link_setSibling (hlink : tree.setSibling previous next = .ok after)
    (hid : id ≠ previous) (hbefore : tree.Link id other) :
    after.Link id other := by
  obtain ⟨-, -, -, rfl⟩ := setSibling_eq_ok_iff.mp hlink
  obtain ⟨node, hnode, hcase⟩ := hbefore
  exact ⟨node, by rw [get?_update, if_neg hid.symm, hnode], hcase⟩

theorem link_setSibling_self
    (hlink : tree.setSibling previous next = .ok after) :
    after.Link previous next := by
  obtain ⟨⟨node, hnode, -⟩, -, -, rfl⟩ := setSibling_eq_ok_iff.mp hlink
  exact ⟨{ node with sibling := some next },
    by rw [get?_update, if_pos rfl, hnode]; rfl, .inr rfl⟩

/-- A path that passes the new link comes to its front and goes on from its end
without it. -/
theorem path_of_setSibling (hlink : tree.setSibling previous next = .ok after)
    (hpath : Relation.TransGen after.Link id other) :
    Relation.TransGen tree.Link id other ∨
      Relation.ReflTransGen tree.Link id previous ∧
        Relation.ReflTransGen tree.Link next other := by
  induction hpath with
  | single hstep =>
      rcases link_of_setSibling hlink hstep with hold | ⟨rfl, rfl⟩
      · exact .inl (.single hold)
      · exact .inr ⟨.refl, .refl⟩
  | tail _ hstep ih =>
      rcases link_of_setSibling hlink hstep with hold | ⟨rfl, rfl⟩
      · exact ih.imp (·.tail hold) fun hnew => ⟨hnew.1, hnew.2.tail hold⟩
      · rcases ih with hbefore | ⟨hbefore, -⟩
        · exact .inr ⟨hbefore.to_reflTransGen, .refl⟩
        · exact .inr ⟨hbefore, .refl⟩

/-- Only links from the front of the new one are changed, so a path to there is
a path still, if it ends where it comes there first. -/
theorem path_setSibling (hlink : tree.setSibling previous next = .ok after)
    (hpath : Relation.ReflTransGen tree.Link id previous) :
    Relation.ReflTransGen after.Link id previous := by
  induction hpath using Relation.ReflTransGen.head_induction_on with
  | refl => exact .refl
  | @head id middle hstep _ ih =>
      by_cases hid : id = previous
      · rw [hid]
      · exact ih.head (link_setSibling hlink hid hstep)

/-- A new sibling link closes a cycle if and only if a path led back along
it. -/
theorem Acyclic.setSibling_iff (hacyclic : tree.Acyclic)
    (hlink : tree.setSibling previous next = .ok after) :
    after.Acyclic ↔ ¬ Relation.ReflTransGen tree.Link next previous := by
  constructor
  · intro hafter hback
    exact hafter previous
      (.head' (link_setSibling_self hlink) (path_setSibling hlink hback))
  · intro hclear id hcycle
    rcases path_of_setSibling hlink hcycle with hold | ⟨hfront, hbehind⟩
    · exact hacyclic id hold
    · exact hclear (hbehind.trans hfront)

end SetSibling

/-! ## Runs that close no cycle -/

/-- From the end of the sibling link that the operation sets no path leads back
to its front. -/
def Operation.Clear (tree : Tree) : Operation → Prop
  | .setSibling previous next => ¬ Relation.ReflTransGen tree.Link next previous
  | .appendSibling head statement =>
      ∀ sequence, tree.siblings head = .ok sequence →
      ¬ Relation.ReflTransGen tree.Link statement (sequence.getLastD head)
  | .add _ _ | .setRoot _ | .setType _ _ => True

theorem Acyclic.apply_iff {tree after : Tree} {operation : Operation}
    (hacyclic : tree.Acyclic) (hgood : tree.WellFormed)
    (happly : operation.apply tree = .ok after) :
    after.Acyclic ↔ operation.Clear tree := by
  cases operation with
  | add line form =>
      obtain ⟨⟨id, grown⟩, hadd, rfl⟩ := except_map_eq_ok.mp happly
      obtain ⟨hparts, -, rfl⟩ := add_eq_ok_iff.mp hadd
      exact iff_of_true (hacyclic.push hgood line hparts) trivial
  | setRoot id =>
      obtain ⟨-, rfl⟩ := setRoot_eq_ok_iff.mp happly
      exact iff_of_true hacyclic trivial
  | setSibling previous next => exact hacyclic.setSibling_iff happly
  | appendSibling head statement =>
      obtain ⟨sequence, hsequence, hlink⟩ := except_bind_eq_ok.mp happly
      rw [hacyclic.setSibling_iff hlink]
      constructor
      · intro hclear other hother
        obtain rfl := Except.ok.inj (hsequence.symm.trans hother)
        exact hclear
      · exact fun hclear => hclear sequence hsequence
  | setType id type =>
      exact iff_of_true (hacyclic.setType happly) trivial

/-- Every operation of a run is clear in the tree it is applied to. -/
def ClearRun (tree : Tree) : List Operation → Prop
  | [] => True
  | operation :: rest => operation.Clear tree ∧
      ∀ after, operation.apply tree = .ok after → ClearRun after rest

theorem Acyclic.applyAll {tree after : Tree} {operations : List Operation}
    (hacyclic : tree.Acyclic) (hbuilt : tree.Built)
    (hclear : tree.ClearRun operations)
    (hrun : tree.applyAll operations = .ok after) : after.Acyclic := by
  induction operations generalizing tree with
  | nil =>
      obtain rfl := Except.ok.inj hrun
      exact hacyclic
  | cons operation rest ih =>
      obtain ⟨middle, happly, hrest⟩ := except_bind_eq_ok.mp hrun
      have hmiddle := (hacyclic.apply_iff hbuilt.wellFormed happly).mpr hclear.1
      exact ih hmiddle (hbuilt.apply happly) (hclear.2 middle happly) hrest

theorem empty_acyclic : Acyclic Tree.empty := by
  intro id hcycle
  obtain ⟨next, hlink, -⟩ := Relation.TransGen.head'_iff.mp hcycle
  exact absurd hlink.lt_size (Nat.not_lt_zero id)

/-- Each node starts a walk that ends if and only if there is no cycle. -/
theorem WellFormed.acyclic_iff_unfolds {tree : Tree} (hgood : tree.WellFormed) :
    tree.Acyclic ↔ ∀ id < tree.size, tree.Unfolds tree.size id := by
  constructor
  · intro hacyclic id hid
    obtain ⟨hexpr, hblock⟩ :=
      hgood.walks_end hacyclic _ id (tree.card_reachable_le_size id)
    obtain ⟨node, hnode⟩ : ∃ node, tree.get? id = some node :=
      ⟨_, Array.getElem?_eq_getElem hid⟩
    cases hcategory : node.form.category with
    | expression => exact .inl (hexpr ⟨node, hnode, hcategory⟩)
    | statement => exact .inr (hblock ⟨node, hnode, hcategory⟩)
  · exact fun hwalks => hgood.acyclic_of_unfolds fun id hid =>
      ⟨_, hwalks id hid⟩

/-- In a tree that operations have built without a fault, neither the links to
parts nor those to siblings run in a cycle of their own, and walks end from all
nodes unless both do together.  An operation brings that about exactly if it
sets a sibling link to a node from which a path leads back, so a run without
such links builds a tree without cycles. -/
theorem cycles_need_both_links {operations : List Operation} {tree : Tree}
    (hrun : Tree.empty.applyAll operations = .ok tree) :
    (∀ id, ¬ Relation.TransGen tree.PartLink id id) ∧
      (∀ id, ¬ Relation.TransGen tree.SiblingLink id id) ∧
      (tree.Acyclic ↔ ∀ id < tree.size, tree.Unfolds tree.size id) ∧
      (tree.Acyclic → ∀ operation after,
        Operation.apply tree operation = .ok after →
        (after.Acyclic ↔ operation.Clear tree)) ∧
      (Tree.empty.ClearRun operations → tree.Acyclic) := by
  have hbuilt : tree.Built := Built.empty.applyAll hrun
  have hgood := hbuilt.wellFormed
  refine ⟨?parts, hbuilt.no_sibling_cycle,
    hgood.acyclic_iff_unfolds, ?step, ?run⟩
  case parts => exact fun id hcycle =>
    Nat.lt_irrefl id (hgood.part_path_lt hcycle)
  case step => exact fun hacyclic operation after happly =>
    hacyclic.apply_iff hgood happly
  case run => exact fun hclear => empty_acyclic.applyAll .empty hclear hrun

def pairReads : List Operation :=
  [.add 1 (.read "x"), .add 2 (.read "y"), .setSibling 0 1, .setRoot 0]

def pairedReads : Tree where
  nodes := #[⟨.read "x", 1, some 1, .void⟩, ⟨.read "y", 2, none, .void⟩]
  root := some 0

theorem pairedReads_acyclic :
    ∃ tree, Tree.empty.applyAll pairReads = .ok tree ∧
      tree.siblings 0 = .ok [0, 1] ∧ tree.Acyclic := by
  have hrun : Tree.empty.applyAll pairReads = .ok pairedReads := by
    decide +kernel
  refine ⟨_, hrun, by decide +kernel, ?_⟩
  obtain ⟨-, -, -, -, hclear⟩ := cycles_need_both_links hrun
  apply hclear
  refine ⟨trivial, fun first hfirst => ⟨trivial, fun second hsecond => ⟨?_,
    fun third hthird => ⟨trivial, fun _ _ => trivial⟩⟩⟩⟩
  obtain rfl := Except.ok.inj hfirst
  obtain rfl := Except.ok.inj hsecond
  intro hback
  rcases Relation.ReflTransGen.cases_head hback with
    hsame | ⟨next, ⟨node, hnode, hcase⟩, -⟩
  · exact absurd hsame (by decide)
  · obtain rfl := Option.some.inj hnode
    rcases hcase with hchild | hsibling
    · exact absurd hchild List.not_mem_nil
    · contradiction

/-- The sibling link from the then part of an `if` to that `if` is accepted,
because the sequence of the `if` is the `if` alone. -/
def loopBranch : List Operation :=
  [.add 1 (.const 0), .add 1 (.read "x"), .add 1 (.ifElse 0 1 none),
    .setSibling 1 2, .setRoot 2]

/-- An `if` whose then part is its own predecessor. -/
def loopedBranch : Tree where
  nodes := #[⟨.const 0, 1, none, .void⟩, ⟨.read "x", 1, some 2, .void⟩,
    ⟨.ifElse 0 1 none, 1, none, .void⟩]
  root := some 2

/-- The same once the test has been given its type. -/
def typedLoopedBranch : Tree where
  nodes := #[⟨.const 0, 1, none, .integer⟩, ⟨.read "x", 1, some 2, .void⟩,
    ⟨.ifElse 0 1 none, 1, none, .void⟩]
  root := some 2

/-- The walk that emits code stops at the test as long as it has no type, and
then goes round for ever. -/
theorem loopedBranch_cyclic :
    Tree.empty.applyAll loopBranch = .ok loopedBranch ∧
      ¬ loopedBranch.Acyclic ∧ (∀ bound, ¬ loopedBranch.Unfolds bound 2) ∧
      (∀ file, analyze loopedBranch file = .error .endless) ∧
      loopedBranch.listing = .error .endless ∧
      (∀ symbols, generate loopedBranch symbols =
        .error (.unanalyzedExpression 1)) ∧
      loopedBranch.setType 0 .integer = .ok typedLoopedBranch ∧
      ∀ symbols, (symbols.location? "x").isSome →
        generate typedLoopedBranch symbols = .error (.malformed .endless) ∧
          Generator.Endless typedLoopedBranch 2 (Generator.start symbols) := by
  have hrun : Tree.empty.applyAll loopBranch = .ok loopedBranch := by
    decide +kernel
  have htype : loopedBranch.setType 0 .integer = .ok typedLoopedBranch := by
    decide +kernel
  have hbuilt : loopedBranch.Built := Built.empty.applyAll hrun
  have hcycle : Relation.TransGen loopedBranch.Link 2 2 :=
    .head (b := 1) ⟨_, rfl, .inl (by decide)⟩ (.single ⟨_, rfl, .inr rfl⟩)
  have hprogram : loopedBranch.program = .error .endless := rfl
  refine ⟨hrun, fun hacyclic => hacyclic 2 hcycle,
    hbuilt.wellFormed.not_unfolds_of_cycle hcycle, ?analysis, ?listing,
    ?untyped, htype, ?typed⟩
  case analysis =>
    intro file
    rw [analyze, hprogram]
    rfl
  case listing =>
    rw [listing, hprogram]
    rfl
  case untyped =>
    intro symbols
    apply generate_eq_error_of_faults
    rfl
  case typed =>
    intro symbols hsome
    have hname : symbols.faults "x" 1 = [] := if_pos hsome
    have hfaults : typedLoopedBranch.faults symbols =
        [.malformed .endless] := by
      simp [faults, faultsWithin, typedLoopedBranch, size, get?,
        Node.entryFaults, Node.behind, Form.category, Form.parts, Form.name?,
        hname]
    have herror := generate_eq_error_of_faults hfaults
    obtain ⟨root, hroot, hcases⟩ :=
      (hbuilt.setType htype).wellFormed.generate_error herror
    obtain rfl := Option.some.inj hroot
    rcases hcases with hoffends | ⟨-, hendless⟩
    · exact absurd rfl (hoffends.ne_malformed .endless)
    · exact ⟨herror, hendless⟩

end Tree
end TinyCompiler
