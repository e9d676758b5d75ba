import TinyCompiler.Proofs.TypeChecking

/-!
# Analysis in place

The analysis can be done in one pass over the nodes that notes types as it goes
and reads the types of the parts of a node from the tree that it changes.  What
it reads at a part was noted on the visit of that part and not before, so the
pass ends with what the analysis of the unfolded program gives, whatever types
the tree had noted at the start.  It notes types at the expressions that can be
reached and touches nothing else.
-/

namespace TinyCompiler

/-- The tree with the types noted so far, the variables seen and the mistakes
made. -/
structure Pass where
  tree : Tree
  symbols : SymbolTable
  mistakes : List (TypeError × Nat)

namespace Pass

def start (tree : Tree) : Pass where
  tree := tree
  symbols := SymbolTable.empty
  mistakes := []

def resolveName (pass : Pass) (id : NodeId) : Except Tree.Fault Pass := do
  let node ← pass.tree.node id
  match node.form.name? with
  | some name =>
      pure { pass with symbols := (pass.symbols.resolve name node.line).2 }
  | none => pure pass

/-- Checks a node against the types noted at its parts, and notes its own. -/
def check (pass : Pass) (id : NodeId) : Except Tree.Fault Pass := do
  let node ← pass.tree.node id
  let mistakes := pass.mistakes ++ (pass.tree.mistakeAt? id).toList
  if node.isStatement then
    pure { pass with mistakes := mistakes }
  else do
    let tree ← pass.tree.setType id node.form.type
    pure { pass with tree := tree, mistakes := mistakes }

def visitWithin : Nat → Pass → NodeId → Except Tree.Fault Pass
  | 0, _, _ => .error .endless
  | bound + 1, pass, id => do
      let opened ← pass.resolveName id
      let node ← opened.tree.node id
      let inside ← node.form.children.foldlM (visitWithin bound) opened
      let closed ← inside.check id
      let left ← closed.tree.node id
      match left.sibling with
      | none => pure closed
      | some next => visitWithin bound closed next

end Pass

def Tree.pass (tree : Tree) : Except Tree.Fault Pass :=
  match tree.root with
  | none => pure (.start tree)
  | some root => Pass.visitWithin (tree.size + 1) (.start tree) root

def Analysis.pass (analysis : Analysis) : Pass where
  tree := analysis.tree
  symbols := analysis.symbols
  mistakes := Finding.mistakes analysis.findings

/-! ## Findings at a node -/

namespace Finding

def atName (name : Option String) (line : Nat) : List Finding :=
  (name.map (occurrence · line)).toList

theorem occurrence?_atMistake (error : Option TypeError) (line : Nat) :
    (atMistake error line).filterMap occurrence? = [] := by
  cases error <;> rfl

end Finding

/-! ## The state of a pass -/

namespace Pass

/-- The state of a pass that has noted types at these nodes and made these
findings. -/
def reached (tree : Tree) (ids : List NodeId) (findings : List Finding) :
    Pass where
  tree := tree.typed ids
  symbols := SymbolTable.empty.resolveAll
    (findings.filterMap Finding.occurrence?)
  mistakes := Finding.mistakes findings

theorem start_eq (tree : Tree) : start tree = reached tree [] [] := by
  rw [reached, Tree.typed_nil]
  rfl

section Reached

variable {tree other : Tree} (hsame : tree.SameShape other) {id : NodeId}
  {node : Node} (hnode : tree.get? id = some node) (ids : List NodeId)
  (findings : List Finding)

include hsame hnode

theorem node_reached :
    ∃ same, (reached other ids findings).tree.node id = .ok same ∧
    same.form = node.form ∧ same.line = node.line ∧
      same.sibling = node.sibling := by
  obtain ⟨same, hget, hkept⟩ := (hsame.typed ids).2.2 id node hnode
  exact ⟨same, Tree.node_eq_ok_iff.mpr hget, hkept⟩

theorem resolveName_reached :
    (reached other ids findings).resolveName id =
      .ok (reached other ids
        (findings ++ Finding.atName node.form.name? node.line)) := by
  obtain ⟨same, hget, hform, hline, -⟩ := node_reached hsame hnode ids findings
  rw [resolveName, except_bind_of_ok hget, hform, hline]
  cases node.form.name? with
  | none =>
      have hnothing : Finding.atName none node.line = [] := rfl
      rw [hnothing, List.append_nil]
      rfl
  | some name =>
      have hseen : (Finding.atName (some name) node.line).filterMap
          Finding.occurrence? =
          [(name, node.line)] := rfl
      have hright :
        Finding.mistakes (Finding.atName (some name) node.line) = [] := rfl
      rw [reached, reached, List.filterMap_append, hseen,
        Finding.mistakes_append, hright, List.append_nil,
        SymbolTable.resolveAll, SymbolTable.resolveAll, List.foldl_append]
      rfl

theorem check_reached :
    (reached other ids findings).check id =
      .ok (reached other
        (ids ++ if node.form.category = .expression then [id] else [])
        (findings ++
          Finding.atMistake (node.form.mistake? (other.typed ids).notedType)
            node.line)) := by
  obtain ⟨same, hget, hform, -⟩ := node_reached hsame hnode ids findings
  have hmistake := (hsame.typed ids).mistakeAt?_eq hnode
  rw [check, except_bind_of_ok hget, Node.isStatement, hform]
  simp only [reached, hmistake, List.filterMap_append,
    Finding.occurrence?_atMistake, Finding.mistakes_append,
    Finding.mistakes_atMistake, List.append_nil]
  cases hcategory : node.form.category with
  | statement =>
      rw [if_pos (by decide), if_neg (by decide), List.append_nil]
      rfl
  | expression =>
      obtain ⟨found, hfound, hfoundForm, -⟩ := hsame.2.2 id node hnode
      have hnoted :=
        Tree.setType_typed hfound (by rw [hfoundForm, hcategory]) ids
      rw [hfoundForm] at hnoted
      rw [if_neg (by decide), if_pos rfl, except_bind_of_ok hnoted]
      rfl

end Reached

/-! ## Visits -/

/-- The visit of the sequences that start at some nodes finds this, and notes
types at these nodes, which are the expressions that can be reached. -/
structure Visits (tree other : Tree) (bound : Nat) (heads ids : List NodeId)
    (findings : List Finding) : Prop where
  visited : ∀ earlier found,
    heads.foldlM (visitWithin bound) (reached other earlier found) =
    .ok (reached other (earlier ++ ids) (found ++ findings))
  mem_iff : ∀ id, id ∈ ids ↔ tree.Holds .expression id ∧
    ∃ head ∈ heads, Relation.ReflTransGen tree.Link head id

section Visits

variable {tree other : Tree} {bound : Nat}
  {heads otherHeads ids otherIds : List NodeId}
  {findings otherFindings : List Finding}

theorem visits_nil (tree other : Tree) (bound : Nat) :
    Visits tree other bound [] [] [] where
  visited := fun earlier found => by rw [List.append_nil, List.append_nil]; rfl
  mem_iff := by simp

theorem Visits.append (hfirst : Visits tree other bound heads ids findings)
    (hsecond : Visits tree other bound otherHeads otherIds otherFindings) :
    Visits tree other bound (heads ++ otherHeads) (ids ++ otherIds)
      (findings ++ otherFindings) where
  visited := by
    intro earlier found
    rw [List.foldlM_append, except_bind_of_ok (hfirst.visited earlier found),
      hsecond.visited, List.append_assoc, List.append_assoc]
  mem_iff := by
    intro id
    rw [List.mem_append, hfirst.mem_iff, hsecond.mem_iff, ← and_or_left]
    simp only [List.mem_append, or_and_right, exists_or]

theorem foldlM_next (bound : Nat) (pass : Pass) (next : Option NodeId) :
    next.toList.foldlM (visitWithin bound) pass =
      match next with
      | none => pure pass
      | some next => visitWithin bound pass next := by
  cases next with
  | none => rfl
  | some next => rw [Option.toList_some, List.foldlM_cons]; exact bind_pure _

/-- The types that a visit reads at the parts of its node are those that the
visits of the parts have noted. -/
theorem Visits.node (hsame : tree.SameShape other) {id : NodeId} {node : Node}
    (hnode : tree.get? id = some node)
    (hinside : Visits tree other bound node.form.children ids findings)
    (hbehind : Visits tree other bound node.sibling.toList otherIds
      otherFindings)
    {error : Option TypeError}
    (herror : ∀ noted, ids ⊆ noted →
      node.form.mistake? (other.typed noted).notedType = error) :
    Visits tree other (bound + 1) [id]
      (ids ++ (if node.form.category = .expression then [id] else []) ++
        otherIds)
      (Finding.atName node.form.name? node.line ++ findings ++
        Finding.atMistake error node.line ++ otherFindings) where
  visited := by
    intro earlier found
    have hread := fun noted seen => node_reached hsame hnode noted seen
    obtain ⟨opened, hopened, hform, -⟩ :=
      hread earlier (found ++ Finding.atName node.form.name? node.line)
    obtain ⟨left, hleft, -, -, hsibling⟩ :=
      hread
        (earlier ++ ids ++
          if node.form.category = .expression then [id] else [])
        (found ++ Finding.atName node.form.name? node.line ++ findings ++
          Finding.atMistake error node.line)
    have hcheck := check_reached hsame hnode (earlier ++ ids)
      (found ++ Finding.atName node.form.name? node.line ++ findings)
    -- All the parts are among the nodes noted by now, whatever was noted
    -- earlier.
    rw [herror _ (List.subset_append_right earlier ids)] at hcheck
    refine (foldlM_next (bound + 1) _ (some id)).trans ?_
    simp only [visitWithin]
    rw [except_bind_of_ok (resolveName_reached hsame hnode earlier found),
      except_bind_of_ok hopened, hform, except_bind_of_ok (hinside.visited _ _),
      except_bind_of_ok hcheck, except_bind_of_ok hleft, hsibling,
      ← foldlM_next, hbehind.visited]
    simp only [List.append_assoc]
  mem_iff := by
    intro other
    have hown : other ∈
        (if node.form.category = .expression then [id] else []) ↔
        tree.Holds .expression other ∧ other = id := by
      constructor
      · intro hmem
        split at hmem
        · obtain rfl := List.mem_singleton.mp hmem
          exact ⟨⟨node, hnode, ‹_›⟩, rfl⟩
        · exact absurd hmem List.not_mem_nil
      · rintro ⟨⟨same, hsame, hcategory⟩, rfl⟩
        obtain rfl := Option.some.inj (hnode.symm.trans hsame)
        rw [if_pos hcategory]
        exact List.mem_singleton_self _
    rw [List.mem_append, List.mem_append, hinside.mem_iff,
      hbehind.mem_iff, hown]
    simp only [List.mem_singleton, exists_eq_left, Tree.path_iff hnode,
      and_or_left, or_assoc, or_left_comm]

end Visits

end Pass

namespace Tree

/-! ## Visits of unfolded phrases -/

def VisitsExpr (tree other : Tree) (bound : Nat) : Prop :=
  ∀ part found, tree.exprWithin bound part = .ok found →
    Pass.Visits tree other bound [part] (found.types.map Prod.fst)
      found.findings ∧
      ∀ noted, found.types.map Prod.fst ⊆ noted →
        (other.typed noted).notedType part = found.type

def VisitsBlock (tree other : Tree) (bound : Nat) : Prop :=
  ∀ part found, tree.blockWithin bound part = .ok found →
    Pass.Visits tree other bound [part] (found.types.map Prod.fst)
      found.findings

section Assembled

variable {tree other : Tree} {bound : Nat} {mark : Mark} {form : Form}

theorem ExprAssembled.visited {phrase : Expr Mark}
    (hphrase : ExprAssembled (tree.exprWithin bound) mark form phrase)
    (hexpr : VisitsExpr tree other bound) :
    ∃ ids findings error,
      Pass.Visits tree other bound form.children ids findings ∧
      (∀ noted, ids ⊆ noted →
        form.mistake? (other.typed noted).notedType = error) ∧
      phrase.findings = Finding.atName form.name? mark.line ++ findings ++
        Finding.atMistake error mark.line ∧
      phrase.types.map Prod.fst = ids ++ [mark.id] ∧
        phrase.type = form.type := by
  cases hphrase with
  | const value =>
      exact ⟨[], [], none, Pass.visits_nil tree other bound, fun _ _ => rfl,
        rfl, rfl, rfl⟩
  | var name =>
      exact ⟨[], [], none, Pass.visits_nil tree other bound, fun _ _ => rfl,
        rfl, rfl, rfl⟩
  | @op operator left right leftExpr rightExpr hleft hright =>
      obtain ⟨hleftVisits, hleftType⟩ := hexpr left leftExpr hleft
      obtain ⟨hrightVisits, hrightType⟩ := hexpr right rightExpr hright
      refine ⟨_, _,
        if leftExpr.type = .integer ∧ rightExpr.type = .integer then none
        else some .operand, hleftVisits.append hrightVisits, ?_, ?_, ?_, rfl⟩
      · intro noted hnoted
        obtain ⟨hleftNoted, hrightNoted⟩ := List.append_subset.mp hnoted
        rw [Form.mistake?, hleftType noted hleftNoted,
          hrightType noted hrightNoted]
      · rw [← Finding.require_eq_atMistake, Bool.decide_and]
        rfl
      · simp [Expr.types]

theorem StmtAssembled.visited {phrase : Stmt Mark}
    (hphrase : StmtAssembled (tree.exprWithin bound) (tree.blockWithin bound)
      mark form phrase)
    (hexpr : VisitsExpr tree other bound)
    (hblock : VisitsBlock tree other bound) :
    ∃ findings error,
      Pass.Visits tree other bound form.children
        (phrase.types.map Prod.fst) findings ∧
      (∀ noted, phrase.types.map Prod.fst ⊆ noted →
        form.mistake? (other.typed noted).notedType = error) ∧
      phrase.findings = Finding.atName form.name? mark.line ++ findings ++
        Finding.atMistake error mark.line := by
  cases hphrase with
  | read name =>
      exact ⟨[], none, Pass.visits_nil tree other bound, fun _ _ => rfl, rfl⟩
  | @assign name value valueExpr hvalue =>
      obtain ⟨hvisits, htype⟩ := hexpr value valueExpr hvalue
      refine ⟨_, if valueExpr.type = .integer then none
        else some .assignedValue, hvisits, ?_, ?_⟩
      · intro noted hnoted
        rw [Form.mistake?, htype noted hnoted]
      · rw [← Finding.require_eq_atMistake]
        rfl
  | @write value valueExpr hvalue =>
      obtain ⟨hvisits, htype⟩ := hexpr value valueExpr hvalue
      refine ⟨_, if valueExpr.type = .integer then none
        else some .writtenValue, hvisits, ?_, ?_⟩
      · intro noted hnoted
        rw [Form.mistake?, htype noted hnoted]
      · rw [← Finding.require_eq_atMistake]
        rfl
  | @ifThen test thenPart testExpr thenBlock htest hthen =>
      obtain ⟨hvisits, htype⟩ := hexpr test testExpr htest
      have hparts := hvisits.append (hblock thenPart thenBlock hthen)
      rw [← List.map_append] at hparts
      refine ⟨_, if testExpr.type = .boolean then none else some .ifTest,
        hparts, ?_, ?_⟩
      · intro noted hnoted
        rw [Stmt.types, List.map_append, List.append_subset] at hnoted
        rw [Form.mistake?, htype noted hnoted.1]
      · rw [← Finding.require_eq_atMistake]
        rfl
  | @ifElse test thenPart elsePart testExpr thenBlock elseBlock htest
        hthen helse =>
      obtain ⟨hvisits, htype⟩ := hexpr test testExpr htest
      have hparts := (hvisits.append (hblock thenPart thenBlock hthen)).append
        (hblock elsePart elseBlock helse)
      rw [← List.map_append, ← List.map_append] at hparts
      refine ⟨_, if testExpr.type = .boolean then none else some .ifTest,
        hparts, ?_, ?_⟩
      · intro noted hnoted
        rw [Stmt.types, List.map_append, List.map_append, List.append_subset,
          List.append_subset] at hnoted
        rw [Form.mistake?, htype noted hnoted.1.1]
      · rw [← Finding.require_eq_atMistake]
        rfl
  | @repeatUntil body test bodyBlock testExpr hbody htest =>
      obtain ⟨hvisits, htype⟩ := hexpr test testExpr htest
      have hparts := (hblock body bodyBlock hbody).append hvisits
      rw [← List.map_append] at hparts
      refine ⟨_, if testExpr.type = .boolean then none else some .repeatTest,
        hparts, ?_, ?_⟩
      · intro noted hnoted
        rw [Stmt.types, List.map_append, List.append_subset] at hnoted
        rw [Form.mistake?, htype noted hnoted.2]
      · rw [← Finding.require_eq_atMistake]
        rfl

end Assembled

section WellFormed

variable {tree other : Tree} (hgood : tree.WellFormed)
  (hsame : tree.SameShape other)
  {program : Block Mark} (hprogram : tree.program = .ok program)

include hgood hsame hprogram

theorem program_visits :
    Pass.Visits tree other (tree.size + 1) tree.root.toList
      (program.types.map Prod.fst)
      program.findings := by
  refine hgood.program_induction
    (fun bound id phrase =>
      Pass.Visits tree other bound [id] (phrase.types.map Prod.fst)
        phrase.findings ∧
        ∀ noted, phrase.types.map Prod.fst ⊆ noted →
          (other.typed noted).notedType id = phrase.type)
    (fun bound heads block =>
      Pass.Visits tree other bound heads (block.types.map Prod.fst)
        block.findings)
    ?expression (Pass.visits_nil tree other) ?statement hprogram
  case expression =>
    intro bound id node phrase hnode hsibling hassembled hexpr
    obtain ⟨ids, findings, error, hinside, herror, hfindings, htypes, htype⟩ :=
      hassembled.visited hexpr
    have hbehind : Pass.Visits tree other bound node.sibling.toList [] [] := by
      rw [hsibling]
      exact Pass.visits_nil tree other bound
    have hvisit := Pass.Visits.node hsame hnode hinside hbehind herror
    rw [if_pos hassembled.category_eq, List.append_nil,
      List.append_nil] at hvisit
    rw [hfindings, htypes]
    refine ⟨hvisit, ?_⟩
    intro noted hnoted
    obtain ⟨same, hother, hform, -⟩ := hsame.2.2 id node hnode
    have hmem : id ∈ noted :=
      hnoted (List.mem_append_right ids (List.mem_singleton_self id))
    rw [notedType_typed hother hmem, htype, hform]
  case statement =>
    intro bound id node first rest hnode hfirst hexpr hblock hbehind
    obtain ⟨findings, error, hinside, herror, hfindings⟩ :=
      hfirst.visited hexpr hblock
    have hvisit := Pass.Visits.node hsame hnode hinside hbehind herror
    rw [hfirst.category_eq, if_neg (by decide),
      List.append_nil, ← List.map_append] at hvisit
    rw [Block.findings, hfindings]
    exact hvisit

/-- Whatever types a tree has noted at the start, the pass over it ends in this
state. -/
theorem pass_eq :
    other.pass =
      .ok (Pass.reached other (program.types.map Prod.fst)
        program.findings) := by
  have hvisited := (program_visits hgood hsame hprogram).visited [] []
  rw [Pass.foldlM_next, ← Pass.start_eq] at hvisited
  rw [Tree.pass, hsame.1, hsame.2.1]
  exact hvisited

end WellFormed

end Tree

/-! ## The analysis -/

/-- The analysis ends where the pass ends, and that depends on the types noted
at the start only where the pass does not come. -/
theorem analyze_reached {tree other : Tree} {program : Block Mark}
    (hgood : tree.WellFormed) (hsame : tree.SameShape other)
    (hprogram : tree.program = .ok program) (file : String) :
    ∃ analysis, analyze other file = .ok analysis ∧ analysis.file = file ∧
      other.pass = .ok analysis.pass ∧
      analysis.pass =
        .reached other (program.types.map Prod.fst) program.findings := by
  have hother := hsame.program hprogram
  have hpass := Tree.pass_eq hgood hsame hprogram
  have hown := Tree.pass_eq (hsame.wellFormed hgood) (.refl other) hother
  exact ⟨_, analyze_eq hother file, rfl, hown,
    Except.ok.inj (hown.symm.trans hpass)⟩

theorem Analysis.results_reached {analysis : Analysis} {tree : Tree}
    {ids : List NodeId} {findings : List Finding}
    (hreached : analysis.pass = .reached tree ids findings) :
    analysis.tree = tree.typed ids ∧
      analysis.symbols =
        SymbolTable.empty.resolveAll (findings.filterMap Finding.occurrence?) ∧
      analysis.diagnostics = (Finding.mistakes findings).map
        fun (error, line) => ⟨.typing error, line, analysis.file⟩ := by
  have hmistakes : Finding.mistakes analysis.findings =
      Finding.mistakes findings :=
    congrArg Pass.mistakes hreached
  refine ⟨congrArg Pass.tree hreached, congrArg Pass.symbols hreached, ?_⟩
  rw [← hmistakes]
  rfl

/-- The analysis of a tree without cycles gives the same variables and the same
errors whatever types the tree has noted, and it notes the same types at the
expressions that can be reached.  It changes nothing else in the tree, and
repeated it changes nothing.  All that holds although the pass reads the types
of parts from the tree that it changes. -/
theorem analysis_ignores_earlier_types (tree other : Tree) (file : String)
    (hbuilt : tree.Built) (hacyclic : tree.Acyclic)
    (hsame : tree.SameShape other) :
    ∃ first second again,
      analyze tree file = .ok first ∧ analyze other file = .ok second ∧
      analyze first.tree file = .ok again ∧
      tree.pass = .ok first.pass ∧ other.pass = .ok second.pass ∧
      (second.symbols = first.symbols ∧ second.diagnostics = first.diagnostics ∧
        ∀ root id, tree.root = some root →
          Relation.ReflTransGen tree.Link root id →
          tree.Holds .expression id →
            second.tree.notedType id = first.tree.notedType id) ∧
      (tree.SameShape first.tree ∧
        ∀ id, (∀ root,
          tree.root = some root → Relation.ReflTransGen tree.Link root id →
          ¬ tree.Holds .expression id) → first.tree.get? id = tree.get? id) ∧
      again.symbols = first.symbols ∧ again.diagnostics = first.diagnostics ∧
        again.tree = first.tree := by
  have hgood := hbuilt.wellFormed
  obtain ⟨program, hprogram⟩ := hgood.program_exists hacyclic
  have hmem := (Tree.program_visits hgood (.refl tree) hprogram).mem_iff
  obtain ⟨first, hfirst, hfirstFile, hfirstPass, hfirstReached⟩ :=
    analyze_reached hgood (.refl tree) hprogram file
  obtain ⟨hfirstTree, hfirstSymbols, hfirstDiagnostics⟩ :=
    Analysis.results_reached hfirstReached
  have hshape : tree.SameShape first.tree := hfirstTree ▸ tree.sameShape_typed _
  obtain ⟨second, hsecond, hsecondFile, hsecondPass, hsecondReached⟩ :=
    analyze_reached hgood hsame hprogram file
  obtain ⟨hsecondTree, hsecondSymbols, hsecondDiagnostics⟩ :=
    Analysis.results_reached hsecondReached
  obtain ⟨again, hagain, hagainFile, -, hagainReached⟩ :=
    analyze_reached hgood hshape hprogram file
  obtain ⟨hagainTree, hagainSymbols, hagainDiagnostics⟩ :=
    Analysis.results_reached hagainReached
  refine ⟨first, second, again, hfirst, hsecond, hagain,
    hfirstPass, hsecondPass, ⟨hsecondSymbols.trans hfirstSymbols.symm, ?_, ?_⟩,
    ⟨hshape, ?_⟩,
    hagainSymbols.trans hfirstSymbols.symm, ?_, ?_⟩
  · rw [hsecondDiagnostics, hfirstDiagnostics, hsecondFile, hfirstFile]
  · rintro root id hroot hpath hholds
    have hid := (hmem id).mpr ⟨hholds, root, Option.mem_toList.mpr hroot, hpath⟩
    obtain ⟨node, hnode, -⟩ := hholds
    obtain ⟨same, hother, hform, -⟩ := hsame.2.2 id node hnode
    rw [hfirstTree, hsecondTree, Tree.notedType_typed hnode hid,
      Tree.notedType_typed hother hid, hform]
  · intro id hunreached
    have hid : id ∉ program.types.map Prod.fst := by
      intro hid
      obtain ⟨hholds, root, hroot, hpath⟩ := (hmem id).mp hid
      exact hunreached root (Option.mem_toList.mp hroot) hpath hholds
    rw [hfirstTree, Tree.get?_typed]
    simp [hid]
  · rw [hagainDiagnostics, hfirstDiagnostics, hagainFile, hfirstFile]
  · rw [hagainTree, hfirstTree, Tree.typed_typed]

/-- A comparison that is a test and also the value written both ways of its
branch, with types noted at it and at its operand, and a constant that belongs
to no statement. -/
def notedBranch (operand comparison : ValueType) : Tree where
  nodes := #[⟨.const 3, 1, none, operand⟩, ⟨.op .less 0 0, 2, none, comparison⟩,
    ⟨.write 1, 3, none, .void⟩, ⟨.ifElse 1 2 (some 2), 4, none, .void⟩,
    ⟨.const 7, 5, none, .boolean⟩]
  root := some 3

theorem notedBranch_analyzed_alike :
    ∃ first second, analyze (notedBranch .void .void) "sample" = .ok first ∧
      analyze (notedBranch .boolean .integer) "sample" = .ok second ∧
      second.diagnostics = first.diagnostics ∧
      first.diagnostics =
        [⟨.typing .writtenValue, 3, "sample"⟩,
          ⟨.typing .writtenValue, 3, "sample"⟩] ∧
      second.tree.notedType 1 = first.tree.notedType 1 ∧
      first.tree.get? 4 = (notedBranch .void .void).get? 4 := by
  have hconst := @Tree.Built.add _ _ 1 (.const 3) _ .empty rfl
  have hless := @Tree.Built.add _ _ 2 (.op .less 0 0) _ hconst rfl
  have hwrite := @Tree.Built.add _ _ 3 (.write 1) _ hless rfl
  have hbranch := @Tree.Built.add _ _ 4 (.ifElse 1 2 (some 2)) _ hwrite rfl
  have hunused := @Tree.Built.add _ _ 5 (.const 7) _ hbranch rfl
  have hrooted := @Tree.Built.setRoot _ _ 3 hunused rfl
  have hbuilt : (notedBranch .void .void).Built :=
    @Tree.Built.setType _ _ 4 .boolean hrooted rfl
  have hacyclic := hbuilt.wellFormed.acyclic_of_unfolds fun id hid =>
    match id, hid with
    | 0, _ | 1, _ | 4, _ => ⟨4, .inl ⟨_, rfl⟩⟩
    | 2, _ | 3, _ => ⟨4, .inr ⟨_, rfl⟩⟩
  have hsame : (notedBranch .void .void).SameShape
      (notedBranch .boolean .integer) := by
    refine ⟨rfl, rfl, ?_⟩
    intro id node hnode
    match id, hnode with
    | 0, rfl | 1, rfl | 2, rfl | 3, rfl | 4, rfl =>
        exact ⟨_, rfl, rfl, rfl, rfl⟩
  obtain ⟨first, second, -, hfirst, hsecond, -, -, -, ⟨-, hdiagnostics, htypes⟩,
    ⟨-, huntouched⟩, -⟩ :=
      analysis_ignores_earlier_types _ _ "sample" hbuilt hacyclic hsame
  have hpath : Relation.ReflTransGen (notedBranch .void .void).Link 3 1 :=
    .single ⟨_, rfl, .inl (by decide)⟩
  refine ⟨first, second, hfirst, hsecond, hdiagnostics, ?_,
    htypes 3 1 rfl hpath ⟨_, rfl, rfl⟩, huntouched 4 ?_⟩
  · cases hfirst
    rfl
  · intro root hroot hreached
    obtain rfl := Option.some.inj hroot
    rcases hreached.cases_tail with hself | ⟨before, -, node, hnode, hlink⟩
    · contradiction
    · match before, hnode with
      | 0, rfl | 1, rfl | 2, rfl | 3, rfl | 4, rfl =>
          exact absurd hlink (by decide)

end TinyCompiler
