import TinyCompiler.Proofs.LoweringLayout
import TinyCompiler.Proofs.PhraseNotes
import TinyCompiler.Proofs.SymbolTableLaws
import TinyCompiler.Proofs.TreeAcyclicity

/-!
# The order of emission

The code of a tree is emitted on a tour of its nodes.  A node is entered, then
its parts are toured in their order, then it is left, and then the rest of its
sequence is toured.  An expression has to have a type when it is entered, and
the name at a node has to have a location when the node is left.  Generation
fails at the first visit where that is not so.
-/

namespace TinyCompiler

namespace Tree

/-! ## Tours -/

inductive Visit where
  | enter (id : NodeId)
  | leave (id : NodeId)
  deriving DecidableEq, Repr

def Visit.id : Visit → NodeId
  | .enter id | .leave id => id

/-- The visits of the sequences that start at some nodes, one sequence after the
other. -/
inductive Tour (tree : Tree) : List NodeId → List Visit → Prop where
  | nil : Tour tree [] []
  | cons {id : NodeId} {node : Node} {others : List NodeId}
      {inside behind rest : List Visit} :
      tree.get? id = some node → Tour tree node.form.children inside →
        Tour tree node.sibling.toList behind → Tour tree others rest →
          Tour tree (id :: others)
            (.enter id :: inside ++ .leave id :: behind ++ rest)

namespace Tour

variable {tree : Tree} {heads others : List NodeId} {order rest : List Visit}

theorem unique (htour : tree.Tour heads order) (hrest : tree.Tour heads rest) :
    order = rest := by
  induction htour generalizing rest with
  | nil =>
      cases hrest
      rfl
  | cons hnode _ _ _ ihInside ihBehind ihRest =>
      cases hrest with
      | cons hsame hinside hbehind hothers =>
          obtain rfl := Option.some.inj (hnode.symm.trans hsame)
          rw [ihInside hinside, ihBehind hbehind, ihRest hothers]

theorem append (htour : tree.Tour heads order) (hrest : tree.Tour others rest) :
    tree.Tour (heads ++ others) (order ++ rest) := by
  induction htour with
  | nil => exact hrest
  | cons hnode hinside hbehind _ _ _ ih =>
      rw [List.append_assoc]
      exact .cons hnode hinside hbehind ih

theorem single {id : NodeId} {node : Node} {inside behind : List Visit}
    (hnode : tree.get? id = some node)
    (hinside : tree.Tour node.form.children inside)
    (hbehind : tree.Tour node.sibling.toList behind) :
    tree.Tour [id] (.enter id :: inside ++ .leave id :: behind) := by
  have htour := Tour.cons hnode hinside hbehind .nil
  rwa [List.append_nil] at htour

/-- A tour enters and leaves what can be reached from where it starts, and
nothing else. -/
theorem mem_iff (htour : tree.Tour heads order) (visit : Visit) :
    visit ∈ order ↔ ∃ head ∈ heads,
      Relation.ReflTransGen tree.Link head visit.id := by
  induction htour with
  | nil => simp
  | @cons id node others inside behind rest hnode _ _ _ ihInside
        ihBehind ihRest =>
      have hhere : visit = .enter id ∨ visit = .leave id ↔ visit.id = id := by
        cases visit <;> simp [Visit.id]
      rw [List.exists_mem_cons_iff,
        path_iff hnode, ← ihInside, ← ihBehind, ← ihRest, ← hhere]
      simp only [List.mem_append, List.mem_cons]
      grind

end Tour

/-! ## Offences -/

/-- What keeps generation from getting past a visit. -/
def offence? (tree : Tree) (symbols : SymbolTable) :
    Visit → Option GenerationError
  | .enter id => (tree.get? id).bind fun node =>
      if node.form.category = .expression ∧ node.type = .void then
        some (.unanalyzedExpression node.line)
      else none
  | .leave id =>
      (tree.get? id).bind fun node => node.form.name?.bind fun name =>
      if (symbols.location? name).isSome then none else some
        (.unknownVariable name node.line)

section Offence

variable {tree : Tree} {symbols : SymbolTable} {id : NodeId} {node : Node}

theorem offence?_enter (hnode : tree.get? id = some node) :
    (tree.offence? symbols (.enter id)).toList =
      if node.form.category = .expression then (node.mark id).faults
      else [] := by
  simp only [offence?, hnode, Option.bind_some, Mark.faults, Node.mark]
  by_cases hcategory : node.form.category = .expression <;>
    by_cases htype : node.type = .void <;> simp [hcategory, htype]

theorem offence?_leave (hnode : tree.get? id = some node) :
    (tree.offence? symbols (.leave id)).toList =
      node.form.name?.toList.flatMap (symbols.faults · node.line) := by
  simp only [offence?, hnode, Option.bind_some, SymbolTable.faults]
  cases node.form.name? with
  | none => rfl
  | some name =>
      by_cases hsome : (symbols.location? name).isSome <;> simp [hsome]

theorem offence?_enter_eq_none_iff :
    tree.offence? symbols (.enter id) = none ↔
      ∀ node, tree.get? id = some node → node.form.category = .expression →
        node.type ≠ .void := by
  simp [offence?]

theorem offence?_leave_eq_none_iff (hlawful : symbols.Lawful) :
    tree.offence? symbols (.leave id) = none ↔
      ∀ node, tree.get? id = some node → ∀ name, node.form.name? = some name →
        name ∈ symbols.toList.map Symbol.name := by
  simp only [offence?, Option.bind_eq_none_iff, ite_eq_left_iff,
    reduceCtorEq, imp_false, not_not, hlawful.mem_names_iff]

theorem offence?_unanalyzed {visit : Visit} {error : GenerationError}
    (hoffence : tree.offence? symbols visit = some error) :
    (∃ line, error = .unanalyzedExpression line) ∨
      ∃ name line, error = .unknownVariable name line := by
  cases visit with
  | enter id =>
      obtain ⟨node, -, hmissing⟩ := Option.bind_eq_some_iff.mp hoffence
      obtain ⟨-, herror⟩ := Option.ite_none_right_eq_some.mp hmissing
      exact .inl ⟨node.line, (Option.some.inj herror).symm⟩
  | leave id =>
      obtain ⟨node, -, hmissing⟩ := Option.bind_eq_some_iff.mp hoffence
      obtain ⟨name, -, hmissing⟩ := Option.bind_eq_some_iff.mp hmissing
      obtain ⟨-, herror⟩ := Option.ite_none_left_eq_some.mp hmissing
      exact .inr ⟨name, node.line, (Option.some.inj herror).symm⟩

end Offence

/-- On the tour from some nodes these faults are met, one after the other. -/
def Meets (tree : Tree) (symbols : SymbolTable) (heads : List NodeId)
    (faults : List GenerationError) : Prop :=
  ∃ order, tree.Tour heads order ∧
    order.filterMap (tree.offence? symbols) = faults

section Meets

variable {tree : Tree} {symbols : SymbolTable} {heads others : List NodeId}
  {faults otherFaults : List GenerationError}

theorem meets_nil (tree : Tree) (symbols : SymbolTable) :
    tree.Meets symbols [] [] :=
  ⟨[], .nil, rfl⟩

theorem Meets.append (hfirst : tree.Meets symbols heads faults)
    (hsecond : tree.Meets symbols others otherFaults) :
    tree.Meets symbols (heads ++ others) (faults ++ otherFaults) := by
  obtain ⟨order, htour, hfaults⟩ := hfirst
  obtain ⟨otherOrder, hotherTour, hotherFaults⟩ := hsecond
  refine ⟨order ++ otherOrder, htour.append hotherTour, ?_⟩
  rw [List.filterMap_append, hfaults, hotherFaults]

theorem Meets.node {id : NodeId} {node : Node}
    (hnode : tree.get? id = some node)
    (hinside : tree.Meets symbols node.form.children faults)
    (hbehind : tree.Meets symbols node.sibling.toList otherFaults) :
    tree.Meets symbols [id]
      ((if node.form.category = .expression then (node.mark id).faults
          else []) ++ faults ++
        node.form.name?.toList.flatMap (symbols.faults · node.line) ++
        otherFaults) := by
  obtain ⟨inside, hinsideTour, hinsideFaults⟩ := hinside
  obtain ⟨behind, hbehindTour, hbehindFaults⟩ := hbehind
  refine ⟨_, .single hnode hinsideTour hbehindTour, ?_⟩
  -- Both visits of the node itself are split off, one before its parts and one
  -- behind.
  have hvisits : Visit.enter id :: inside ++ .leave id :: behind =
      [.enter id] ++ inside ++ [.leave id] ++ behind := by simp
  have hsingle : ∀ visit, [visit].filterMap (tree.offence? symbols) =
      (tree.offence? symbols visit).toList := by
    intro visit
    cases hoffence : tree.offence? symbols visit <;> simp [hoffence]
  rw [hvisits, List.filterMap_append, List.filterMap_append,
    List.filterMap_append, hsingle, hsingle, hinsideFaults, hbehindFaults,
    offence?_enter hnode, offence?_leave hnode]

end Meets

/-! ## Unfolded phrases -/

section Assembled

variable {tree : Tree} {symbols : SymbolTable}
  {expr : NodeId → Except Fault (Expr Mark)}
  {block : NodeId → Except Fault (Block Mark)} {mark : Mark} {form : Form}

/-- The tour from a node meets the faults of the expression found there. -/
def MeetsExpr (tree : Tree) (symbols : SymbolTable)
    (expr : NodeId → Except Fault (Expr Mark)) :
    Prop :=
  ∀ part found,
    expr part = .ok found → tree.Meets symbols [part] (found.faults symbols)

def MeetsBlock (tree : Tree) (symbols : SymbolTable)
    (block : NodeId → Except Fault (Block Mark)) : Prop :=
  ∀ part found,
    block part = .ok found → tree.Meets symbols [part] (found.faults symbols)

theorem ExprAssembled.meets {phrase : Expr Mark}
    (hphrase : ExprAssembled expr mark form phrase)
    (hexpr : tree.MeetsExpr symbols expr) :
    ∃ faults, tree.Meets symbols form.children faults ∧
      phrase.faults symbols =
        mark.faults ++ faults ++
          form.name?.toList.flatMap (symbols.faults · mark.line) := by
  cases hphrase with
  | const value =>
      exact ⟨[], meets_nil tree symbols, by simp [Expr.faults, Form.name?]⟩
  | var name =>
      exact ⟨[], meets_nil tree symbols, by simp [Expr.faults, Form.name?]⟩
  | @op operator left right leftExpr rightExpr hleft hright =>
      refine ⟨_, (hexpr left leftExpr hleft).append
        (hexpr right rightExpr hright), ?_⟩
      simp [Expr.faults, Form.name?]

theorem StmtAssembled.meets {phrase : Stmt Mark}
    (hphrase : StmtAssembled expr block mark form phrase)
    (hexpr : tree.MeetsExpr symbols expr)
    (hblock : tree.MeetsBlock symbols block) :
    ∃ faults, tree.Meets symbols form.children faults ∧
      phrase.faults symbols =
        faults ++ form.name?.toList.flatMap (symbols.faults · mark.line) := by
  cases hphrase with
  | read name =>
      exact ⟨[], meets_nil tree symbols, by simp [Stmt.faults, Form.name?]⟩
  | @assign name value valueExpr hvalue =>
      exact ⟨_, hexpr value valueExpr hvalue, by simp [Stmt.faults, Form.name?]⟩
  | @write value valueExpr hvalue =>
      exact ⟨_, hexpr value valueExpr hvalue, by simp [Stmt.faults, Form.name?]⟩
  | @ifThen test thenPart testExpr thenBlock htest hthen =>
      refine ⟨_, (hexpr test testExpr htest).append
        (hblock thenPart thenBlock hthen), ?_⟩
      simp [Stmt.faults, Form.name?]
  | @ifElse test thenPart elsePart testExpr thenBlock elseBlock htest
        hthen helse =>
      refine ⟨_, (hexpr test testExpr htest).append
        ((hblock thenPart thenBlock hthen).append
          (hblock elsePart elseBlock helse)), ?_⟩
      simp [Stmt.faults, Form.name?]
  | @repeatUntil body test bodyBlock testExpr hbody htest =>
      refine ⟨_, (hblock body bodyBlock hbody).append
        (hexpr test testExpr htest), ?_⟩
      simp [Stmt.faults, Form.name?]

end Assembled

theorem program_meets {tree : Tree} (hgood : tree.WellFormed)
    (symbols : SymbolTable) {program : Block Mark}
    (hprogram : tree.program = .ok program) :
    tree.Meets symbols tree.root.toList (program.faults symbols) := by
  refine hgood.program_induction
    (fun _ id phrase => tree.Meets symbols [id] (phrase.faults symbols))
    (fun _ heads block => tree.Meets symbols heads (block.faults symbols))
    ?expression (fun _ => meets_nil tree symbols) ?statement hprogram
  case expression =>
    intro bound id node phrase hnode hsibling hassembled hexpr
    obtain ⟨faults, hinside, hfaults⟩ := hassembled.meets hexpr
    have hbehind : tree.Meets symbols node.sibling.toList [] := by
      rw [hsibling]
      exact meets_nil tree symbols
    have hvisit := Meets.node hnode hinside hbehind
    rw [if_pos hassembled.category_eq, List.append_nil] at hvisit
    rw [hfaults]
    exact hvisit
  case statement =>
    intro bound id node first rest hnode hfirst hexpr hblock hbehind
    obtain ⟨faults, hinside, hfaults⟩ := hfirst.meets hexpr hblock
    have hvisit := Meets.node hnode hinside hbehind
    rw [hfirst.category_eq, if_neg (by decide), List.nil_append] at hvisit
    rw [Block.faults, hfaults]
    exact hvisit

end Tree

/-! ## Generation -/

section Generation

variable {tree : Tree} {symbols : SymbolTable} {program : Block Mark}
  {order : List Tree.Visit} (hprogram : tree.program = .ok program)
  (hfaults : order.filterMap (tree.offence? symbols) = program.faults symbols)

include hprogram hfaults

/-- Generation fails at the first offence of the tour. -/
theorem generate_eq_error_iff (error : GenerationError) :
    generate tree symbols = .error error ↔
      order.findSome? (tree.offence? symbols) = some error := by
  rw [← List.head?_filterMap, hfaults, generate_eq hprogram]
  cases program.faults symbols <;> simp

theorem generate_eq_ok_iff :
    (∃ result, generate tree symbols = .ok result) ↔
      ∀ visit ∈ order, tree.offence? symbols visit = none := by
  rw [← List.filterMap_eq_nil_iff, hfaults, generate_eq hprogram]
  cases program.faults symbols <;> simp

end Generation

theorem Tree.Tour.clean_iff {tree : Tree} {symbols : SymbolTable}
    {order : List Visit} (htour : tree.Tour tree.root.toList order)
    (hlawful : symbols.Lawful) :
    (∀ visit ∈ order, tree.offence? symbols visit = none) ↔
      ∀ root id node,
        tree.root = some root → Relation.ReflTransGen tree.Link root id →
        tree.get? id = some node →
          (node.form.category = .expression → node.type ≠ .void) ∧
            ∀ name, node.form.name? = some name →
              name ∈ symbols.toList.map Symbol.name := by
  constructor
  · intro hclean root id node hroot hpath hnode
    have hmem : ∀ visit : Visit, visit.id = id → visit ∈ order := by
      intro visit hid
      exact (htour.mem_iff visit).mpr
        ⟨root, Option.mem_toList.mpr hroot, hid ▸ hpath⟩
    have henter := hclean (.enter id) (hmem _ rfl)
    have hleave := hclean (.leave id) (hmem _ rfl)
    exact ⟨offence?_enter_eq_none_iff.mp henter node hnode,
      (offence?_leave_eq_none_iff hlawful).mp hleave node hnode⟩
  · intro hall visit hvisit
    obtain ⟨root, hroot, hpath⟩ := (htour.mem_iff visit).mp hvisit
    rw [Option.mem_toList] at hroot
    cases visit with
    | enter id =>
        rw [offence?_enter_eq_none_iff]
        exact fun node hnode => (hall root id node hroot hpath hnode).1
    | leave id =>
        rw [offence?_leave_eq_none_iff hlawful]
        exact fun node hnode => (hall root id node hroot hpath hnode).2

/-- Generation from a tree without cycles and any table ends in a program
exactly if every expression that can be reached has a type and the table has
every name used there.  Otherwise it fails at the first visit of the tour that
offends, and the error is what that visit misses, never a jump that could not be
patched. -/
theorem generation_stops_at_first_offence (tree : Tree)
    (occurrences : List (String × Nat)) (hbuilt : tree.Built)
    (hacyclic : tree.Acyclic) :
    let symbols := SymbolTable.empty.resolveAll occurrences
    ∃ order, (∀ visits, tree.Tour tree.root.toList visits ↔ visits = order) ∧
      ((∃ program, generate tree symbols = .ok program) ↔
        ∀ root id node,
          tree.root = some root → Relation.ReflTransGen tree.Link root id →
          tree.get? id = some node →
            (node.form.category = .expression → node.type ≠ .void) ∧
              ∀ name, node.form.name? = some name →
                name ∈ symbols.toList.map Symbol.name) ∧
      (∀ error, generate tree symbols = .error error ↔
        order.findSome? (tree.offence? symbols) = some error) ∧
      ∀ error, generate tree symbols = .error error →
        (∃ line, error = .unanalyzedExpression line) ∨
          ∃ name line, error = .unknownVariable name line := by
  intro symbols
  have hlawful : symbols.Lawful := SymbolTable.resolveAll_lawful occurrences
  obtain ⟨program, hprogram⟩ := hbuilt.wellFormed.program_exists hacyclic
  obtain ⟨order, htour, hfaults⟩ :=
    Tree.program_meets hbuilt.wellFormed symbols hprogram
  have herror := generate_eq_error_iff hprogram hfaults
  refine ⟨order, ?_, ?_, herror, ?_⟩
  · intro visits
    exact ⟨fun hvisits => hvisits.unique htour, fun hvisits => hvisits ▸ htour⟩
  · rw [generate_eq_ok_iff hprogram hfaults, htour.clean_iff hlawful]
  · intro error hgenerate
    obtain ⟨visit, -, hoffence⟩ :=
      List.exists_of_findSome?_eq_some ((herror error).mp hgenerate)
    exact Tree.offence?_unanalyzed hoffence

/-- A branch of which the test lacks one type, with one statement for both
ways. -/
def halfTypedBranch : Tree where
  nodes := #[⟨.const 3, 1, none, .integer⟩, ⟨.var "x", 2, none, .integer⟩,
    ⟨.op .plus 0 1, 2, none, .integer⟩, ⟨.const 4, 3, none, .void⟩,
    ⟨.op .less 2 3, 3, none, .boolean⟩, ⟨.read "y", 4, none, .void⟩,
    ⟨.ifElse 4 5 (some 5), 5, none, .void⟩]
  root := some 6

/-- One name of the branch, and one that is not there. -/
def otherOccurrences : List (String × Nat) :=
  [("x", 9), ("z", 1)]

theorem halfTypedBranch_stopped :
    let symbols := SymbolTable.empty.resolveAll otherOccurrences
    generate halfTypedBranch symbols = .error (.unanalyzedExpression 3) ∧
      ¬ ∃ program, generate halfTypedBranch symbols = .ok program := by
  intro symbols
  have hconst := @Tree.Built.add _ _ 1 (.const 3) _ .empty rfl
  have hvar := @Tree.Built.add _ _ 2 (.var "x") _ hconst rfl
  have hsum := @Tree.Built.add _ _ 2 (.op .plus 0 1) _ hvar rfl
  have hother := @Tree.Built.add _ _ 3 (.const 4) _ hsum rfl
  have hless := @Tree.Built.add _ _ 3 (.op .less 2 3) _ hother rfl
  have hread := @Tree.Built.add _ _ 4 (.read "y") _ hless rfl
  have hbranch := @Tree.Built.add _ _ 5 (.ifElse 4 5 (some 5)) _ hread rfl
  have hrooted := @Tree.Built.setRoot _ _ 6 hbranch rfl
  have hfirst := @Tree.Built.setType _ _ 0 .integer hrooted rfl
  have hsecond := @Tree.Built.setType _ _ 1 .integer hfirst rfl
  have hthird := @Tree.Built.setType _ _ 2 .integer hsecond rfl
  have hbuilt : halfTypedBranch.Built :=
    @Tree.Built.setType _ _ 4 .boolean hthird rfl
  have hacyclic := hbuilt.wellFormed.acyclic_of_unfolds fun id hid =>
    match id, hid with
    | 0, _ | 1, _ | 2, _ | 3, _ | 4, _ => ⟨4, .inl ⟨_, rfl⟩⟩
    | 5, _ | 6, _ => ⟨4, .inr ⟨_, rfl⟩⟩
  obtain ⟨order, horder, -, herror, -⟩ :=
    generation_stops_at_first_offence halfTypedBranch otherOccurrences
      hbuilt hacyclic
  have hthree : halfTypedBranch.Tour [0] [.enter 0, .leave 0] :=
    @Tree.Tour.single _ 0 _ [] [] rfl .nil .nil
  have hx : halfTypedBranch.Tour [1] [.enter 1, .leave 1] :=
    @Tree.Tour.single _ 1 _ [] [] rfl .nil .nil
  have hfour : halfTypedBranch.Tour [3] [.enter 3, .leave 3] :=
    @Tree.Tour.single _ 3 _ [] [] rfl .nil .nil
  have hy : halfTypedBranch.Tour [5] [.enter 5, .leave 5] :=
    @Tree.Tour.single _ 5 _ [] [] rfl .nil .nil
  have hplus :=
    @Tree.Tour.single halfTypedBranch 2 _ _ [] rfl (hthree.append hx) .nil
  have htest :=
    @Tree.Tour.single halfTypedBranch 4 _ _ [] rfl (hplus.append hfour) .nil
  have hall := @Tree.Tour.single halfTypedBranch 6 _ _ [] rfl
    (htest.append (hy.append hy)) .nil
  have hknown : (symbols.location? "x").isSome := by
    simp [symbols, otherOccurrences, SymbolTable.location?_resolveAll_isSome]
  have hfails : generate halfTypedBranch symbols =
      .error (.unanalyzedExpression 3) := by
    rw [herror, ← (horder _).mp hall]
    simp [Tree.offence?, Tree.get?, halfTypedBranch, Form.category, Form.name?,
      hknown, symbols]
  refine ⟨hfails, ?_⟩
  rw [hfails]
  simp

end TinyCompiler
