import Mathlib.Order.Monotone.Basic
import TinyCompiler.Proofs.EmissionOrder

/-!
# Bounds of the walks that emit code

A walk within a bound fails at its first fault.  A larger bound leaves that
fault as it is, unless it was the bound itself.  The nodes from which a walk
comes to an end within a bound become more with the bound until one step adds
none, and from then on they stay the same.  So as many steps as there are nodes
are enough: a walk that is stopped by that bound would go on for ever.  All
other faults of walks over a well-formed tree are offences at nodes that the
walk can reach.
-/

namespace TinyCompiler
namespace Tree

variable {tree : Tree} {symbols : SymbolTable} {bound : Nat}
  {category : Category} {id : NodeId} {node : Node}

/-! ## Larger bounds -/

/-- Where a walk from a node fails. -/
def firstFault (tree : Tree) (symbols : SymbolTable) (bound : Nat)
    (category : Category) (id : NodeId) : Option GenerationError :=
  (tree.faultsWithin symbols bound category id).head?

theorem firstFault_absent (hnode : tree.get? id = none) :
    tree.firstFault symbols (bound + 1) category id =
      some (.malformed (.absent id)) := by
  rw [firstFault, faultsWithin, hnode]
  rfl

theorem firstFault_succ (hnode : tree.get? id = some node) :
    tree.firstFault symbols (bound + 1) category id =
      (((node.entryFaults category).head?.or
        (node.form.parts.findSome? fun part =>
          tree.firstFault symbols bound part.1 part.2)).or
        (node.form.name?.toList.flatMap (symbols.faults · node.line)).head?).or
        ((node.behind category).findSome?
          (tree.firstFault symbols bound .statement)) := by
  rw [firstFault, faultsWithin_succ hnode]
  simp only [List.head?_append, List.head?_flatMap]
  rfl

/-- Of two walks the one that is longer fails where the other does, unless that
one was stopped by its bound. -/
def Prolongs (longer shorter : Option GenerationError) : Prop :=
  shorter = some (.malformed .endless) ∨ longer = shorter

section Prolongs

variable {longer shorter otherLonger otherShorter : Option GenerationError}

theorem prolongs_refl (fault : Option GenerationError) : Prolongs fault fault :=
  .inr rfl

theorem Prolongs.or (hfirst : Prolongs longer shorter)
    (hsecond : Prolongs otherLonger otherShorter) :
    Prolongs (longer.or otherLonger) (shorter.or otherShorter) := by
  rcases hfirst with rfl | rfl
  · exact .inl rfl
  · cases longer with
    | some fault => exact prolongs_refl _
    | none => exact hsecond

theorem Prolongs.findSome? {α : Type} {items : List α}
    {longer shorter : α → Option GenerationError}
    (hitems : ∀ item ∈ items, Prolongs (longer item) (shorter item)) :
    Prolongs (items.findSome? longer) (items.findSome? shorter) := by
  induction items with
  | nil => exact prolongs_refl none
  | cons item rest ih =>
      obtain ⟨hitem, hrest⟩ := List.forall_mem_cons.mp hitems
      have hall := hitem.or (ih hrest)
      rw [List.findSome?_cons, List.findSome?_cons]
      cases hlonger : longer item <;> cases hshorter : shorter item <;>
        simpa [hlonger, hshorter] using hall

end Prolongs

theorem firstFault_prolongs (tree : Tree) (symbols : SymbolTable) (bound : Nat)
    (category : Category) (id : NodeId) :
    Prolongs (tree.firstFault symbols (bound + 1) category id)
      (tree.firstFault symbols bound category id) := by
  induction bound generalizing category id with
  | zero => exact .inl rfl
  | succ bound ih =>
      cases hnode : tree.get? id with
      | none =>
          rw [firstFault_absent hnode, firstFault_absent hnode]
          exact prolongs_refl _
      | some node =>
          rw [firstFault_succ hnode, firstFault_succ hnode]
          have hparts := Prolongs.findSome? fun part
            (_ : part ∈ node.form.parts) => ih part.1 part.2
          have hbehind := Prolongs.findSome? fun next
            (_ : next ∈ node.behind category) => ih .statement next
          exact (((prolongs_refl _).or hparts).or (prolongs_refl _)).or hbehind

/-- The walk from a node is not stopped by its bound. -/
def Ends (tree : Tree) (symbols : SymbolTable) (bound : Nat)
    (category : Category) (id : NodeId) : Prop :=
  tree.firstFault symbols bound category id ≠ some (.malformed .endless)

theorem Ends.succ_eq (hends : tree.Ends symbols bound category id) :
    tree.firstFault symbols (bound + 1) category id =
      tree.firstFault symbols bound category id :=
  (firstFault_prolongs tree symbols bound category id).resolve_left hends

theorem Ends.le_eq (hends : tree.Ends symbols bound category id) {larger : Nat}
    (hle : bound ≤ larger) :
    tree.firstFault symbols larger category id =
      tree.firstFault symbols bound category id := by
  induction larger, hle using Nat.le_induction with
  | base => rfl
  | succ larger _ ih =>
      have hlarger : tree.Ends symbols larger category id := by rwa [Ends, ih]
      rw [hlarger.succ_eq, ih]

theorem Ends.le (hends : tree.Ends symbols bound category id) {larger : Nat}
    (hle : bound ≤ larger) : tree.Ends symbols larger category id := by
  rwa [Ends, hends.le_eq hle]

/-! ## The nodes from which walks end -/

open Classical in
/-- The nodes from which a walk comes to an end within a bound. -/
noncomputable def settled (tree : Tree) (symbols : SymbolTable) (bound : Nat) :
    Finset NodeId :=
  (Finset.range tree.size).filter fun id =>
    ∀ category, tree.Holds category id → tree.Ends symbols bound category id

theorem mem_settled : id ∈ tree.settled symbols bound ↔
    id < tree.size ∧
      ∀ category, tree.Holds category id →
        tree.Ends symbols bound category id := by
  simp [settled]

/-- A node is of one category only. -/
theorem mem_settled_iff (hholds : tree.Holds category id) :
    id ∈ tree.settled symbols bound ↔ tree.Ends symbols bound category id := by
  rw [mem_settled, and_iff_right hholds.lt_size]
  constructor
  · exact fun hall => hall category hholds
  · rintro hends other ⟨node, hnode, rfl⟩
    obtain ⟨same, hsame, rfl⟩ := hholds
    obtain rfl := Option.some.inj (hnode.symm.trans hsame)
    exact hends

theorem settled_mono (tree : Tree) (symbols : SymbolTable) :
    Monotone (tree.settled symbols) := by
  intro bound larger hle id hid
  obtain ⟨hsize, hends⟩ := mem_settled.mp hid
  exact mem_settled.mpr
    ⟨hsize, fun category hholds => (hends category hholds).le hle⟩

theorem card_settled_le (tree : Tree) (symbols : SymbolTable) (bound : Nat) :
    (tree.settled symbols bound).card ≤ tree.size := by
  rw [← Finset.card_range tree.size]
  exact Finset.card_le_card fun id hid =>
    Finset.mem_range.mpr (mem_settled.mp hid).1

/-- Where one more step settles no more nodes, it changes no first fault. -/
theorem firstFault_eq_of_settled
    (hsettled : tree.settled symbols (bound + 1) = tree.settled symbols bound)
    (hholds : tree.Holds category id) :
    tree.firstFault symbols (bound + 1) category id =
      tree.firstFault symbols bound category id := by
  by_cases hends : tree.Ends symbols bound category id
  · exact hends.succ_eq
  · have hlonger : ¬ tree.Ends symbols (bound + 1) category id := by
      rwa [← mem_settled_iff hholds, hsettled, mem_settled_iff hholds]
    rw [not_ne_iff.mp hends, not_ne_iff.mp hlonger]

theorem findSome?_congr {α β : Type} {items : List α}
    {first second : α → Option β}
    (hsame : ∀ item ∈ items, first item = second item) :
    items.findSome? first = items.findSome? second := by
  have hmap : ∀ value : α → Option β,
      items.findSome? value = (items.map value).findSome? id := by
    intro value
    rw [List.findSome?_map, Function.id_comp]
  rw [hmap, hmap, List.map_congr_left hsame]

theorem WellFormed.holds_of_behind (hgood : tree.WellFormed)
    (hnode : tree.get? id = some node) {next : NodeId}
    (hnext : next ∈ node.behind category) : tree.Holds .statement next := by
  cases category with
  | expression => exact absurd hnext List.not_mem_nil
  | statement =>
      exact (hgood.siblings id node next hnode (Option.mem_toList.mp hnext)).2

theorem WellFormed.settled_stable (hgood : tree.WellFormed)
    (hsettled : tree.settled symbols (bound + 1) = tree.settled symbols bound) :
    tree.settled symbols (bound + 2) = tree.settled symbols (bound + 1) := by
  have hsame : ∀ category id, tree.Holds category id →
      tree.firstFault symbols (bound + 2) category id =
        tree.firstFault symbols (bound + 1) category id := by
    rintro category id ⟨node, hnode, -⟩
    rw [firstFault_succ hnode, firstFault_succ hnode]
    have hparts : ∀ part ∈ node.form.parts,
        tree.firstFault symbols (bound + 1) part.1 part.2 =
          tree.firstFault symbols bound part.1 part.2 :=
      fun part hpart =>
        firstFault_eq_of_settled hsettled
          (hgood.parts id node hnode part hpart).2
    have hbehind : ∀ next ∈ node.behind category,
        tree.firstFault symbols (bound + 1) .statement next =
          tree.firstFault symbols bound .statement next :=
      fun next hnext =>
        firstFault_eq_of_settled hsettled (hgood.holds_of_behind hnode hnext)
    rw [findSome?_congr hparts, findSome?_congr hbehind]
  ext id
  rw [mem_settled, mem_settled]
  apply and_congr_right
  intro _
  apply forall₂_congr
  intro category hholds
  rw [Ends, Ends, hsame category id hholds]

/-- As many steps as there are nodes settle all that any number of steps
settles. -/
theorem WellFormed.settled_eq (hgood : tree.WellFormed)
    (hbound : tree.size ≤ bound) :
    tree.settled symbols bound = tree.settled symbols tree.size := by
  have hmono := settled_mono tree symbols
  have hcard : (tree.settled symbols bound).card =
      (tree.settled symbols tree.size).card := by
    refine Nat.stabilises_of_monotone
      (f := fun bound => (tree.settled symbols bound).card)
      (fun _ _ hle => Finset.card_le_card (hmono hle))
      (card_settled_le tree symbols) ?_ hbound
    intro bound hsame
    have hstep := Finset.eq_of_subset_of_card_le (hmono bound.le_succ) hsame.ge
    rw [hgood.settled_stable hstep.symm]
  exact (Finset.eq_of_subset_of_card_le (hmono hbound) hcard.le).symm

/-- A walk that is stopped by a bound of as many steps as there are nodes is
stopped by every bound. -/
theorem WellFormed.not_ends (hgood : tree.WellFormed)
    (hholds : tree.Holds category id) (hbound : tree.size ≤ bound)
    (hstopped : ¬ tree.Ends symbols bound category id) (other : Nat) :
    ¬ tree.Ends symbols other category id := by
  intro hends
  apply hstopped
  have hlarger : tree.size ≤ max other bound :=
    hbound.trans (le_max_right other bound)
  rw [← mem_settled_iff hholds, hgood.settled_eq hbound,
    ← hgood.settled_eq hlarger, mem_settled_iff hholds]
  exact hends.le (le_max_left other bound)

/-! ## Faults that are met -/

/-- The error is what some visit of a node that can be reached from another
misses. -/
def Offends (tree : Tree) (symbols : SymbolTable) (id : NodeId)
    (error : GenerationError) : Prop :=
  ∃ visit : Visit, Relation.ReflTransGen tree.Link id visit.id ∧
    tree.offence? symbols visit = some error

theorem Offends.head {next : NodeId} {error : GenerationError}
    (hlink : tree.Link id next) (hoffends : tree.Offends symbols next error) :
    tree.Offends symbols id error := by
  obtain ⟨visit, hpath, hoffence⟩ := hoffends
  exact ⟨visit, .head hlink hpath, hoffence⟩

theorem Offends.ne_malformed {error : GenerationError}
    (hoffends : tree.Offends symbols id error) (fault : Fault) :
    error ≠ .malformed fault := by
  obtain ⟨visit, -, hoffence⟩ := hoffends
  rcases offence?_unanalyzed hoffence with ⟨line, rfl⟩ | ⟨name, line, rfl⟩ <;>
    exact GenerationError.noConfusion

theorem entryFaults_eq (hnode : tree.get? id = some node)
    (hcategory : node.form.category = category) :
    node.entryFaults category = (tree.offence? symbols (.enter id)).toList := by
  rw [offence?_enter hnode]
  cases category with
  | expression =>
      rw [Node.entryFaults_expression hcategory id, if_pos hcategory]
  | statement =>
      rw [Node.entryFaults, if_pos hcategory,
        if_neg (by rw [hcategory]; decide)]

/-- In a well-formed tree a walk comes to no node that is missing or of the
wrong category. -/
theorem WellFormed.mem_faultsWithin (hgood : tree.WellFormed)
    (hholds : tree.Holds category id) {error : GenerationError}
    (herror : error ∈ tree.faultsWithin symbols bound category id) :
    tree.Offends symbols id error ∨ error = .malformed .endless := by
  induction bound generalizing category id with
  | zero => exact .inr (List.mem_singleton.mp herror)
  | succ bound ih =>
      obtain ⟨node, hnode, hcategory⟩ := hholds
      rw [faultsWithin_succ hnode, entryFaults_eq hnode hcategory,
        ← offence?_leave hnode] at herror
      simp only [List.mem_append, Option.mem_toList, List.mem_flatMap] at herror
      rcases herror with ((henter | ⟨part, hpart, hinside⟩) | hleave) |
        ⟨next, hnext, hbehind⟩
      · exact .inl ⟨.enter id, .refl, henter⟩
      · have hlink : tree.Link id part.2 :=
          ⟨node, hnode, .inl (List.mem_map_of_mem hpart)⟩
        exact (ih (hgood.parts id node hnode part hpart).2 hinside).imp_left
          (.head hlink)
      · exact .inl ⟨.leave id, .refl, hleave⟩
      · have hholds := hgood.holds_of_behind hnode hnext
        refine (ih hholds hbehind).imp_left (.head ?_)
        cases category with
        | expression => exact absurd hnext List.not_mem_nil
        | statement => exact ⟨node, hnode, .inr (Option.mem_toList.mp hnext)⟩

theorem WellFormed.firstFault_cases (hgood : tree.WellFormed)
    (hholds : tree.Holds category id) {error : GenerationError}
    (herror : tree.firstFault symbols bound category id = some error) :
    tree.Offends symbols id error ∨ error = .malformed .endless :=
  hgood.mem_faultsWithin hholds (List.mem_of_mem_head? herror)

end Tree

/-! ## Generation -/

section Generation

variable {tree : Tree} {symbols : SymbolTable} {bound : Nat} {id : NodeId}
  {before after : Generator} {error : GenerationError}

theorem Tree.WellFormed.lowerExprWithin_error (hgood : tree.WellFormed)
    (hholds : tree.Holds .expression id)
    (herror : Generator.lowerExprWithin tree bound id before =
      .error error after) :
    tree.Offends before.symbols id error ∨ error = .malformed .endless :=
  have hlowers := Generator.lowerExprWithin_lowers tree bound id before
  hgood.firstFault_cases hholds (hlowers.head?_of_error herror)

theorem Tree.WellFormed.lowerBlockWithin_error (hgood : tree.WellFormed)
    (hholds : tree.Holds .statement id)
    (herror : Generator.lowerBlockWithin tree bound id before =
      .error error after) :
    tree.Offends before.symbols id error ∨ error = .malformed .endless :=
  have hlowers := Generator.lowerBlockWithin_lowers tree bound id before
  hgood.firstFault_cases hholds (hlowers.head?_of_error herror)

/-- The walk is stopped by every bound it is given. -/
def Generator.Endless (tree : Tree) (id : NodeId) (before : Generator) : Prop :=
  ∀ bound, ∃ after,
    Generator.lowerBlockWithin tree bound id before =
      .error (.malformed .endless) after

/-- Generation fails at an offence that the walk can reach, or the walk goes on
for ever. -/
theorem Tree.WellFormed.generate_error (hgood : tree.WellFormed)
    (herror : generate tree symbols = .error error) :
    ∃ root, tree.root = some root ∧
      (tree.Offends symbols root error ∨
        error = .malformed .endless ∧
          Generator.Endless tree root (Generator.start symbols)) := by
  cases hfaults : tree.faults symbols with
  | nil =>
      obtain ⟨program, -, hgenerate⟩ := generate_eq_ok_of_faults hfaults
      rw [herror] at hgenerate
      cases hgenerate
  | cons fault rest =>
      rw [generate_eq_error_of_faults hfaults] at herror
      obtain rfl := Except.error.inj herror
      cases hroot : tree.root with
      | none => simp [Tree.faults, hroot] at hfaults
      | some root =>
          refine ⟨root, rfl, ?_⟩
          have hholds := hgood.root root hroot
          have hfirst : tree.firstFault symbols (tree.size + 1) .statement
              root = some fault := by
            rw [Tree.faults, hroot] at hfaults
            rw [Tree.firstFault]
            simpa using congrArg List.head? hfaults
          refine (hgood.firstFault_cases hholds hfirst).imp_right ?_
          rintro rfl
          refine ⟨rfl, fun bound => ?_⟩
          have hstopped :=
            hgood.not_ends hholds (Nat.le_succ _) (not_not.mpr hfirst) bound
          exact (Generator.lowerBlockWithin_lowers tree bound root
            (Generator.start symbols)).error_of_head? (not_not.mp hstopped)

end Generation

end TinyCompiler
