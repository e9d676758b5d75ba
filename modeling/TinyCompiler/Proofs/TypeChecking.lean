import TinyCompiler.Proofs.TreeAcyclicity
import TinyCompiler.Proofs.TypeSystem

/-!
# Type checking

The walk over a tree visits the parts of a node in order, then the node, and
then the rest of its sequence; a node with several links to it is visited once
along each.  The analysis notes the type of every expression that can be reached
and reports one error at each visit of a node whose own rule fails for the types
noted at its parts, so an error is not reported again further up.  There is none
exactly if the program is well typed.
-/

namespace TinyCompiler

/-! ## The order of the visits -/

/-- The visits of the sequences that start at some nodes, one sequence after the
other. -/
inductive Tree.Walk (tree : Tree) : List NodeId → List NodeId → Prop where
  | nil : Walk tree [] []
  | cons {id : NodeId} {node : Node} {others parts behind rest : List NodeId} :
      tree.get? id = some node → Walk tree node.form.children parts →
        Walk tree node.sibling.toList behind → Walk tree others rest →
          Walk tree (id :: others) (parts ++ id :: behind ++ rest)

namespace Tree.Walk

variable {tree : Tree} {heads others order rest : List NodeId}

theorem unique (hwalk : tree.Walk heads order) (hrest : tree.Walk heads rest) :
    order = rest := by
  induction hwalk generalizing rest with
  | nil =>
      cases hrest
      rfl
  | cons hnode _ _ _ ihParts ihBehind ihRest =>
      cases hrest with
      | cons hsame hparts hbehind hothers =>
          obtain rfl := Option.some.inj (hnode.symm.trans hsame)
          rw [ihParts hparts, ihBehind hbehind, ihRest hothers]

theorem append (hwalk : tree.Walk heads order) (hrest : tree.Walk others rest) :
    tree.Walk (heads ++ others) (order ++ rest) := by
  induction hwalk with
  | nil => exact hrest
  | cons hnode hparts hbehind _ _ _ ih =>
      rw [List.append_assoc]
      exact .cons hnode hparts hbehind ih

theorem single {id : NodeId} {node : Node} {parts behind : List NodeId}
    (hnode : tree.get? id = some node)
    (hparts : tree.Walk node.form.children parts)
    (hbehind : tree.Walk node.sibling.toList behind) :
    tree.Walk [id] (parts ++ id :: behind) := by
  have hwalk := Walk.cons hnode hparts hbehind .nil
  rwa [List.append_nil] at hwalk

theorem heads_subset (hwalk : tree.Walk heads order) : heads ⊆ order := by
  induction hwalk with
  | nil => exact List.nil_subset _
  | cons _ _ _ _ _ _ ih =>
      refine List.cons_subset.mpr ⟨by simp, ?_⟩
      exact List.subset_append_of_subset_right _ ih

theorem link_mem (hwalk : tree.Walk heads order) {id next : NodeId}
    (hid : id ∈ order) (hlink : tree.Link id next) : next ∈ order := by
  induction hwalk with
  | nil => exact absurd hid List.not_mem_nil
  | @cons head node others parts behind rest hnode hparts hbehind _ ihParts
        ihBehind ihRest =>
      simp only [List.mem_append, List.mem_cons] at hid ⊢
      rcases hid with (hid | rfl | hid) | hid
      · exact .inl (.inl (ihParts hid))
      · obtain ⟨same, hsame, hchild | hsibling⟩ := hlink
        all_goals obtain rfl := Option.some.inj (hnode.symm.trans hsame)
        · exact .inl (.inl (hparts.heads_subset hchild))
        · have hnext : next ∈ node.sibling.toList := by simp [hsibling]
          exact .inl (.inr (.inr (hbehind.heads_subset hnext)))
      · exact .inl (.inr (.inr (ihBehind hid)))
      · exact .inr (ihRest hid)

theorem reachable_mem (hwalk : tree.Walk heads order) {id next : NodeId}
    (hid : id ∈ order) (hpath : Relation.ReflTransGen tree.Link id next) :
    next ∈ order := by
  induction hpath with
  | refl => exact hid
  | tail _ hlink ih => exact hwalk.link_mem ih hlink

end Tree.Walk

/-! ## The rule of a node -/

/-- The error that a node of a form makes when its parts have these types. -/
def Form.mistake? (typeOf : NodeId → ValueType) : Form → Option TypeError
  | .op _ left right =>
      if typeOf left = .integer ∧ typeOf right = .integer then none
      else some .operand
  | .ifElse test _ _ => if typeOf test = .boolean then none else some .ifTest
  | .repeatUntil _ test =>
      if typeOf test = .boolean then none else some .repeatTest
  | .assign _ value =>
      if typeOf value = .integer then none else some .assignedValue
  | .write value => if typeOf value = .integer then none else some .writtenValue
  | .read _ | .const _ | .var _ => none

namespace Finding

def atMistake (error : Option TypeError) (line : Nat) : List Finding :=
  (error.map (mistake · line)).toList

theorem require_eq_atMistake {holds : Prop} [Decidable holds]
    (error : TypeError) (line : Nat) :
    require (decide holds) error line =
      atMistake (if holds then none else some error) line := by
  by_cases hholds : holds <;> simp [hholds, require, atMistake]

theorem mistakes_atMistake (error : Option TypeError) (line : Nat) :
    mistakes (atMistake error line) =
      (error.map fun error => (error, line)).toList := by
  cases error <;> rfl

theorem mistakes_require {holds : Prop} [Decidable holds] (error : TypeError)
    (line : Nat) :
    mistakes (require (decide holds) error line) =
      ((if holds then none else some error).map fun error =>
        (error, line)).toList := by
  rw [require_eq_atMistake, mistakes_atMistake]

end Finding

namespace Tree

/-- The type noted at a node. -/
def notedType (tree : Tree) (id : NodeId) : ValueType :=
  ((tree.get? id).map Node.type).getD .void

theorem notedType_typed {tree : Tree} {id : NodeId} {node : Node}
    (hnode : tree.get? id = some node) {ids : List NodeId} (hmem : id ∈ ids) :
    (tree.typed ids).notedType id = node.form.type := by
  rw [notedType, get?_typed, hnode, Option.map_some, if_pos hmem]
  rfl

/-- The error that a node makes with its parts as they are typed in the tree,
and its line. -/
def mistakeAt? (tree : Tree) (id : NodeId) : Option (TypeError × Nat) :=
  (tree.get? id).bind fun node =>
    (node.form.mistake? tree.notedType).map fun error => (error, node.line)

/-- The tree notes these types. -/
def Notes (tree : Tree) (types : List (NodeId × ValueType)) : Prop :=
  ∀ entry ∈ types, tree.notedType entry.1 = entry.2

theorem notes_append {tree : Tree} {types others : List (NodeId × ValueType)} :
    tree.Notes (types ++ others) ↔ tree.Notes types ∧ tree.Notes others :=
  List.forall_mem_append

theorem notes_typed {tree : Tree} {types : List (NodeId × ValueType)}
    (htypes : tree.TypesOf types) :
    (tree.typed (types.map Prod.fst)).Notes types := by
  intro entry hentry
  obtain ⟨node, hnode, -, htype⟩ := htypes entry hentry
  have hmem : entry.1 ∈ types.map Prod.fst := List.mem_map_of_mem hentry
  rw [notedType_typed hnode hmem, htype]

theorem SameShape.mistakeAt?_eq {tree other : Tree}
    (hsame : tree.SameShape other) {id : NodeId} {node : Node}
    (hnode : tree.get? id = some node) :
    other.mistakeAt? id =
      (node.form.mistake? other.notedType).map fun error =>
        (error, node.line) := by
  obtain ⟨same, hother, hform, hline, -⟩ := hsame.2.2 id node hnode
  rw [mistakeAt?, hother, Option.bind_some, hform, hline]

/-! ## The walk and the mistakes it meets -/

/-- On the walk from some nodes these mistakes are made, one after the other,
and only these nodes are expressions. -/
def Checked (tree typed : Tree) (heads : List NodeId)
    (mistakes : List (TypeError × Nat)) (expressions : List NodeId) : Prop :=
  ∃ order, tree.Walk heads order ∧ order.filterMap typed.mistakeAt? = mistakes ∧
    ∀ id ∈ order, tree.Holds .expression id → id ∈ expressions

section Checked

variable {tree typed : Tree}
  {heads others expressions otherExpressions : List NodeId}
  {mistakes otherMistakes : List (TypeError × Nat)}

theorem checked_nil (tree typed : Tree) : Checked tree typed [] [] [] :=
  ⟨[], .nil, rfl, by simp⟩

theorem Checked.append (hfirst : Checked tree typed heads mistakes expressions)
    (hsecond : Checked tree typed others otherMistakes otherExpressions) :
    Checked tree typed (heads ++ others) (mistakes ++ otherMistakes)
      (expressions ++ otherExpressions) := by
  obtain ⟨order, hwalk, hmistakes, hmem⟩ := hfirst
  obtain ⟨otherOrder, hotherWalk, hotherMistakes, hotherMem⟩ := hsecond
  refine ⟨order ++ otherOrder, hwalk.append hotherWalk, ?_, ?_⟩
  · rw [List.filterMap_append, hmistakes, hotherMistakes]
  · intro id hid hholds
    rcases List.mem_append.mp hid with hid | hid
    · exact List.mem_append_left _ (hmem id hid hholds)
    · exact List.mem_append_right _ (hotherMem id hid hholds)

/-- The visit of one node, between its parts and the rest of its sequence. -/
theorem Checked.node {id : NodeId} {node : Node} {own : List NodeId}
    (hnode : tree.get? id = some node)
    (hown : node.form.category = .expression → id ∈ own)
    (hparts : Checked tree typed node.form.children mistakes expressions)
    (hbehind : Checked tree typed node.sibling.toList otherMistakes
      otherExpressions) :
    Checked tree typed [id]
      (mistakes ++ (typed.mistakeAt? id).toList ++ otherMistakes)
      (expressions ++ own ++ otherExpressions) := by
  obtain ⟨parts, hpartsWalk, hpartsMistakes, hpartsMem⟩ := hparts
  obtain ⟨behind, hbehindWalk, hbehindMistakes, hbehindMem⟩ := hbehind
  refine ⟨_, .single hnode hpartsWalk hbehindWalk, ?_, ?_⟩
  · have hvisit : id :: behind = [id] ++ behind := rfl
    rw [hvisit, List.filterMap_append, List.filterMap_append, hpartsMistakes,
      hbehindMistakes, ← List.append_assoc]
    cases hmistake : typed.mistakeAt? id <;> simp [hmistake]
  · intro other hother hholds
    simp only [List.mem_append, List.mem_cons] at hother ⊢
    rcases hother with hother | rfl | hother
    · exact .inl (.inl (hpartsMem other hother hholds))
    · obtain ⟨same, hsame, hcategory⟩ := hholds
      obtain rfl := Option.some.inj (hnode.symm.trans hsame)
      exact .inl (.inr (hown hcategory))
    · exact .inr (hbehindMem other hother hholds)

end Checked

/-! ## Unfolded phrases -/

section Assembled

variable {tree typed : Tree} {expr : NodeId → Except Fault (Expr Mark)}
  {block : NodeId → Except Fault (Block Mark)} {mark : Mark} {form : Form}

/-- The expressions found at nodes are checked and have the types noted. -/
def ChecksExpr (tree typed : Tree) (expr : NodeId → Except Fault (Expr Mark)) :
    Prop :=
  ∀ part found, expr part = .ok found → typed.Notes found.types →
    Checked tree typed [part] (Finding.mistakes found.findings)
      (found.types.map Prod.fst) ∧
      typed.notedType part = found.type

def ChecksBlock (tree typed : Tree)
    (block : NodeId → Except Fault (Block Mark)) : Prop :=
  ∀ part found, block part = .ok found → typed.Notes found.types →
    Checked tree typed [part] (Finding.mistakes found.findings)
      (found.types.map Prod.fst)

theorem ExprAssembled.checked {phrase : Expr Mark}
    (hphrase : ExprAssembled expr mark form phrase)
    (hnotes : typed.Notes phrase.types) (hexpr : ChecksExpr tree typed expr) :
    ∃ mistakes expressions,
      Checked tree typed form.children mistakes expressions ∧
      Finding.mistakes phrase.findings = mistakes ++
        ((form.mistake? typed.notedType).map fun error =>
          (error, mark.line)).toList ∧
      phrase.types.map Prod.fst = expressions ++ [mark.id] ∧
      typed.notedType mark.id = phrase.type := by
  cases hphrase with
  | const value =>
      exact ⟨[], [], checked_nil tree typed, rfl, rfl,
        hnotes _ (List.mem_singleton_self _)⟩
  | var name =>
      exact ⟨[], [], checked_nil tree typed, rfl, rfl,
        hnotes _ (List.mem_singleton_self _)⟩
  | @op operator left right leftExpr rightExpr hleft hright =>
      obtain ⟨hparts, hself⟩ := notes_append.mp hnotes
      obtain ⟨hleftNotes, hrightNotes⟩ := notes_append.mp hparts
      obtain ⟨hleftChecked, hleftType⟩ := hexpr left leftExpr hleft hleftNotes
      obtain ⟨hrightChecked, hrightType⟩ :=
        hexpr right rightExpr hright hrightNotes
      refine ⟨_, _, hleftChecked.append hrightChecked, ?_, ?_, ?_⟩
      · rw [Form.mistake?, hleftType, hrightType, ← Finding.mistakes_require,
          ← Finding.mistakes_append, ← Finding.mistakes_append, Bool.decide_and]
        rfl
      · simp [Expr.types]
      · exact hself _ (List.mem_singleton_self _)

theorem StmtAssembled.checked {phrase : Stmt Mark}
    (hphrase : StmtAssembled expr block mark form phrase)
    (hnotes : typed.Notes phrase.types) (hexpr : ChecksExpr tree typed expr)
    (hblock : ChecksBlock tree typed block) :
    ∃ mistakes, Checked tree typed form.children mistakes
      (phrase.types.map Prod.fst) ∧
      Finding.mistakes phrase.findings = mistakes ++
        ((form.mistake? typed.notedType).map fun error =>
          (error, mark.line)).toList := by
  cases hphrase with
  | read name => exact ⟨[], checked_nil tree typed, rfl⟩
  | @assign name value valueExpr hvalue =>
      obtain ⟨hchecked, htype⟩ := hexpr value valueExpr hvalue hnotes
      refine ⟨_, hchecked, ?_⟩
      rw [Form.mistake?,
        htype, ← Finding.mistakes_require, ← Finding.mistakes_append]
      rfl
  | @write value valueExpr hvalue =>
      obtain ⟨hchecked, htype⟩ := hexpr value valueExpr hvalue hnotes
      refine ⟨_, hchecked, ?_⟩
      rw [Form.mistake?,
        htype, ← Finding.mistakes_require, ← Finding.mistakes_append]
      rfl
  | @ifThen test thenPart testExpr thenBlock htest hthen =>
      obtain ⟨htestNotes, hthenNotes⟩ := notes_append.mp hnotes
      obtain ⟨hchecked, htype⟩ := hexpr test testExpr htest htestNotes
      have hparts :=
        hchecked.append (hblock thenPart thenBlock hthen hthenNotes)
      rw [← List.map_append] at hparts
      refine ⟨_, hparts, ?_⟩
      rw [Form.mistake?,
        htype, ← Finding.mistakes_require, ← Finding.mistakes_append,
        ← Finding.mistakes_append]
      rfl
  | @ifElse test thenPart elsePart testExpr thenBlock elseBlock htest
        hthen helse =>
      obtain ⟨hfirst, helseNotes⟩ := notes_append.mp hnotes
      obtain ⟨htestNotes, hthenNotes⟩ := notes_append.mp hfirst
      obtain ⟨hchecked, htype⟩ := hexpr test testExpr htest htestNotes
      have hparts :=
        (hchecked.append (hblock thenPart thenBlock hthen hthenNotes)).append
        (hblock elsePart elseBlock helse helseNotes)
      rw [← List.map_append, ← List.map_append] at hparts
      refine ⟨_, hparts, ?_⟩
      rw [Form.mistake?,
        htype, ← Finding.mistakes_require, ← Finding.mistakes_append,
        ← Finding.mistakes_append, ← Finding.mistakes_append]
      rfl
  | @repeatUntil body test bodyBlock testExpr hbody htest =>
      obtain ⟨hbodyNotes, htestNotes⟩ := notes_append.mp hnotes
      obtain ⟨hchecked, htype⟩ := hexpr test testExpr htest htestNotes
      have hparts := (hblock body bodyBlock hbody hbodyNotes).append hchecked
      rw [← List.map_append] at hparts
      refine ⟨_, hparts, ?_⟩
      rw [Form.mistake?,
        htype, ← Finding.mistakes_require, ← Finding.mistakes_append,
        ← Finding.mistakes_append]
      rfl

end Assembled

theorem program_checked {tree typed : Tree} (hgood : tree.WellFormed)
    (hsame : tree.SameShape typed) {program : Block Mark}
    (hprogram : tree.program = .ok program)
    (hnotes : typed.Notes program.types) :
    Checked tree typed tree.root.toList (Finding.mistakes program.findings)
      (program.types.map Prod.fst) := by
  refine hgood.program_induction
    (fun _ id phrase => typed.Notes phrase.types →
      Checked tree typed [id] (Finding.mistakes phrase.findings)
        (phrase.types.map Prod.fst) ∧
        typed.notedType id = phrase.type)
    (fun _ heads block => typed.Notes block.types →
      Checked tree typed heads (Finding.mistakes block.findings)
        (block.types.map Prod.fst))
    ?expression (fun _ _ => checked_nil tree typed) ?statement hprogram hnotes
  case expression =>
    intro bound id node phrase hnode hsibling hassembled hexpr hnotes
    obtain ⟨mistakes, expressions, hparts, hmistakes, hexpressions, htype⟩ :=
      hassembled.checked hnotes hexpr
    have hbehind : Checked tree typed node.sibling.toList [] [] := by
      rw [hsibling]
      exact checked_nil tree typed
    have hvisit :=
      Checked.node hnode (fun _ => List.mem_singleton_self id) hparts hbehind
    rw [hsame.mistakeAt?_eq hnode, List.append_nil, List.append_nil] at hvisit
    rw [hmistakes, hexpressions]
    exact ⟨hvisit, htype⟩
  case statement =>
    intro bound id node first rest hnode hfirst hexpr hblock hbehind hnotes
    obtain ⟨hfirstNotes, hrestNotes⟩ := notes_append.mp hnotes
    obtain ⟨mistakes, hparts, hmistakes⟩ :=
      hfirst.checked hfirstNotes hexpr hblock
    have hstatement : node.form.category = .expression → id ∈ [] := by
      rw [hfirst.category_eq]
      simp
    have hvisit := Checked.node hnode hstatement hparts (hbehind hrestNotes)
    rw [hsame.mistakeAt?_eq hnode, List.append_nil, ← List.map_append] at hvisit
    rw [Block.findings, Finding.mistakes_append, hmistakes]
    exact hvisit

end Tree

/-! ## The result of the analysis -/

theorem Analysis.accepted_iff (analysis : Analysis) :
    (∃ symbols, analysis.accepted = .ok symbols) ↔
      analysis.diagnostics = [] := by
  unfold accepted
  cases hdiagnostics : analysis.diagnostics with
  | nil => simp
  | cons diagnostic rest => simp

theorem Tree.typed_hasType {tree : Tree} {ids : List NodeId} {id : NodeId}
    {node : Node} (hmem : tree.Holds .expression id → id ∈ ids)
    (hnode : (tree.typed ids).get? id = some node)
    (hcategory : node.form.category = .expression) :
    node.form.HasType node.type ∧ node.type ≠ .void := by
  rw [get?_typed] at hnode
  obtain ⟨old, hold, rfl⟩ := Option.map_eq_some_iff.mp hnode
  have hform :
      (if id ∈ ids then { old with type := old.form.type } else old).form =
      old.form := by
    split <;> rfl
  rw [hform] at hcategory
  rw [if_pos (hmem ⟨old, hold, hcategory⟩)]
  exact ⟨Form.hasType_type hcategory, Form.type_ne_void hcategory⟩

/-- The analysis of a tree without cycles notes the type of every expression
that can be reached and reports the mistakes of the visits, in their order and
each once.  There is none exactly if the program is well typed. -/
theorem analyzed_tree_type_checked (tree : Tree) (file : String)
    (hbuilt : tree.Built) (hacyclic : tree.Acyclic) :
    ∃ program analysis order, tree.program = .ok program ∧
      analyze tree file = .ok analysis ∧ tree.SameShape analysis.tree ∧
      (∀ root id node,
        tree.root = some root → Relation.ReflTransGen tree.Link root id →
        analysis.tree.get? id = some node → node.form.category = .expression →
          node.form.HasType node.type ∧ node.type ≠ .void) ∧
      (∀ visits, tree.Walk tree.root.toList visits ↔ visits = order) ∧
      analysis.diagnostics = (order.filterMap analysis.tree.mistakeAt?).map
        (fun (error, line) => ⟨.typing error, line, file⟩) ∧
      (analysis.diagnostics = [] ↔ program.WellTyped) ∧
      ((∃ symbols, analysis.accepted = .ok symbols) ↔ program.WellTyped) := by
  obtain ⟨program, hprogram⟩ := hbuilt.wellFormed.program_exists hacyclic
  have hsame := tree.sameShape_typed (program.types.map Prod.fst)
  have htypes := Tree.program_typesOf hprogram
  obtain ⟨order, hwalk, hmistakes, hexpressions⟩ :=
    Tree.program_checked hbuilt.wellFormed hsame hprogram
      (Tree.notes_typed htypes)
  have hempty : Analysis.diagnostics ⟨program.findings, file,
      tree.typed (program.types.map Prod.fst)⟩ = [] ↔ program.WellTyped := by
    rw [program.wellTyped_iff]
    exact List.map_eq_nil_iff
  refine ⟨program, _, order, hprogram, analyze_eq hprogram file, hsame, ?_, ?_,
    ?_, hempty, ?_⟩
  · intro root id node hroot hpath hnode hcategory
    have hfirst : root ∈ order := hwalk.heads_subset (by simp [hroot])
    exact Tree.typed_hasType
      (hexpressions id (hwalk.reachable_mem hfirst hpath)) hnode hcategory
  · intro visits
    exact ⟨fun hvisits => hvisits.unique hwalk, fun hvisits => hvisits ▸ hwalk⟩
  · rw [hmistakes]
    rfl
  · rw [Analysis.accepted_iff, hempty]

/-- A comparison that is the test of a branch and also the value written by the
one statement that stands for both ways of the branch. -/
def sharedComparison : Tree where
  nodes := #[.fresh 1 (.const 3), .fresh 2 (.op .less 0 0), .fresh 3 (.write 1),
    .fresh 4 (.ifElse 1 2 (some 2))]
  root := some 3

theorem sharedComparison_type_checked :
    ∃ analysis order, analyze sharedComparison "sample" = .ok analysis ∧
      order = [0, 0, 1, 0, 0, 1, 2, 0, 0, 1, 2, 3] ∧
      analysis.diagnostics = (order.filterMap analysis.tree.mistakeAt?).map
        (fun (error, line) => ⟨.typing error, line, "sample"⟩) ∧
      analysis.diagnostics =
        [⟨.typing .writtenValue, 3, "sample"⟩,
          ⟨.typing .writtenValue, 3, "sample"⟩] ∧
      analysis.tree.notedType 1 = .boolean ∧ ¬ ∃ symbols,
        analysis.accepted = .ok symbols := by
  have hfirst := @Tree.Built.add _ _ 1 (.const 3) _ .empty rfl
  have hsecond := @Tree.Built.add _ _ 2 (.op .less 0 0) _ hfirst rfl
  have hthird := @Tree.Built.add _ _ 3 (.write 1) _ hsecond rfl
  have hfourth := @Tree.Built.add _ _ 4 (.ifElse 1 2 (some 2)) _ hthird rfl
  have hbuilt : sharedComparison.Built := @Tree.Built.setRoot _ _ 3 hfourth rfl
  have hacyclic := hbuilt.wellFormed.acyclic_of_unfolds fun id hid =>
    match id, hid with
    | 0, _ => ⟨4, .inl ⟨_, rfl⟩⟩
    | 1, _ => ⟨4, .inl ⟨_, rfl⟩⟩
    | 2, _ => ⟨4, .inr ⟨_, rfl⟩⟩
    | 3, _ => ⟨4, .inr ⟨_, rfl⟩⟩
  obtain ⟨program, analysis, order, -, hanalyze, -, -, horder,
    hdiagnostics, hempty,
    haccepted⟩ := analyzed_tree_type_checked _ "sample" hbuilt hacyclic
  have hconst : sharedComparison.Walk [0] [0] :=
    @Tree.Walk.single _ 0 _ [] [] rfl .nil .nil
  have hless : sharedComparison.Walk [1] [0, 0, 1] :=
    @Tree.Walk.single _ 1 _ [0, 0] [] rfl (hconst.append hconst) .nil
  have hwrite : sharedComparison.Walk [2] [0, 0, 1, 2] :=
    @Tree.Walk.single _ 2 _ [0, 0, 1] [] rfl hless .nil
  have hbranch :
      sharedComparison.Walk [3] [0, 0, 1, 0, 0, 1, 2, 0, 0, 1, 2, 3] :=
    @Tree.Walk.single _ 3 _ [0, 0, 1, 0, 0, 1, 2, 0, 0, 1, 2] [] rfl
      (hless.append (hwrite.append hwrite)) .nil
  have herrors : analysis.diagnostics =
      [⟨.typing .writtenValue, 3, "sample"⟩,
        ⟨.typing .writtenValue, 3, "sample"⟩] := by
    cases hanalyze
    rfl
  have htype : analysis.tree.notedType 1 = .boolean := by
    cases hanalyze
    rfl
  refine ⟨analysis, order, hanalyze, ((horder _).mp hbranch).symm,
    hdiagnostics, herrors, htype, ?_⟩
  rw [haccepted, ← hempty, herrors]
  simp

end TinyCompiler
