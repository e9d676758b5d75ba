import TinyCompiler.Generator.Lowering
import TinyCompiler.Proofs.PhraseNotes
import TinyCompiler.Proofs.TreeUnfolding

/-!
# What keeps a tree from being lowered

The faults of a phrase are listed in the order in which its code is emitted.  A
walk over a tree has faults of its own, where the tree has no node or a wrong
one and where the bound is reached.  A walk without faults unfolds the tree, and
the faults of a walk that unfolds the tree are those of the phrase.
-/

namespace TinyCompiler

/-! ## Faults of phrases -/

def Mark.faults (mark : Mark) : List GenerationError :=
  if mark.type = .void then [.unanalyzedExpression mark.line] else []

def SymbolTable.faults (table : SymbolTable) (name : String) (line : Nat) :
    List GenerationError :=
  if (table.location? name).isSome then [] else [.unknownVariable name line]

section Faults

variable (symbols : SymbolTable)

/-- What keeps an expression from being lowered, in the order of emission. -/
def Expr.faults : Expr Mark → List GenerationError
  | .const mark _ => mark.faults
  | .var mark name => mark.faults ++ symbols.faults name mark.line
  | .op mark _ left right => mark.faults ++ (left.faults ++ right.faults)

mutual

def Stmt.faults : Stmt Mark → List GenerationError
  | .read mark name => symbols.faults name mark.line
  | .assign mark name value =>
      value.faults symbols ++ symbols.faults name mark.line
  | .write _ value => value.faults symbols
  | .ifThen _ test thenPart => test.faults symbols ++ thenPart.faults
  | .ifElse _ test thenPart elsePart =>
      test.faults symbols ++ (thenPart.faults ++ elsePart.faults)
  | .repeatUntil _ body test => body.faults ++ test.faults symbols

def Block.faults : Block Mark → List GenerationError
  | .nil => []
  | .cons first rest => first.faults ++ rest.faults

end

end Faults

/-! ## Faults of walks -/

/-- The faults at a node where a phrase of a category is wanted, before the walk
comes to the parts. -/
def Node.entryFaults (node : Node) : Category → List GenerationError
  | .expression =>
      (if node.type = .void then [.unanalyzedExpression node.line] else []) ++
        if node.form.category = .expression then []
        else [.malformed (.misplaced .expression node.form)]
  | .statement =>
      if node.form.category = .statement then []
      else [.malformed (.misplaced .statement node.form)]

theorem Node.category_of_entryFaults {node : Node} {category : Category}
    (hentry : node.entryFaults category = []) :
    node.form.category = category := by
  by_cases hcategory : node.form.category = category
  · exact hcategory
  · cases category <;> simp [entryFaults, hcategory] at hentry

theorem Node.entryFaults_expression {node : Node}
    (hcategory : node.form.category = .expression) (id : NodeId) :
    node.entryFaults .expression = (node.mark id).faults := by
  rw [entryFaults, if_pos hcategory, List.append_nil]
  rfl

/-- The nodes to which a walk goes on behind a node.  An expression is not
followed by anything. -/
def Node.behind (node : Node) : Category → List NodeId
  | .expression => []
  | .statement => node.sibling.toList

namespace Tree

/-- The faults that a walk from a node can come to, in the order in which it
comes to them. -/
def faultsWithin (tree : Tree) (symbols : SymbolTable) :
    Nat → Category → NodeId → List GenerationError
  | 0, _, _ => [.malformed .endless]
  | bound + 1, category, id =>
      match tree.get? id with
      | none => [.malformed (.absent id)]
      | some node =>
          node.entryFaults category ++
            (node.form.parts.flatMap fun part =>
              tree.faultsWithin symbols bound part.1 part.2) ++
            node.form.name?.toList.flatMap (symbols.faults · node.line) ++
            (node.behind category).flatMap
              (tree.faultsWithin symbols bound .statement)

variable {tree : Tree} {symbols : SymbolTable} {bound : Nat}
  {category : Category} {id : NodeId} {node : Node}

theorem faultsWithin_succ (hnode : tree.get? id = some node) :
    tree.faultsWithin symbols (bound + 1) category id =
      node.entryFaults category ++
        (node.form.parts.flatMap fun part =>
          tree.faultsWithin symbols bound part.1 part.2) ++
        node.form.name?.toList.flatMap (symbols.faults · node.line) ++
        (node.behind category).flatMap
          (tree.faultsWithin symbols bound .statement) := by
  rw [faultsWithin, hnode]

theorem node_of_faultsWithin
    (hfaults : tree.faultsWithin symbols (bound + 1) category id = []) :
    ∃ node, tree.get? id = some node := by
  cases hnode : tree.get? id with
  | none => simp [faultsWithin, hnode] at hfaults
  | some node => exact ⟨node, rfl⟩

theorem faultsWithin_succ_eq_nil_iff (hnode : tree.get? id = some node) :
    tree.faultsWithin symbols (bound + 1) category id = [] ↔
      (node.entryFaults category = [] ∧
        ∀ part ∈ node.form.parts,
          tree.faultsWithin symbols bound part.1 part.2 = []) ∧
      (∀ name, node.form.name? = some name →
        symbols.faults name node.line = []) ∧
      ∀ next ∈ node.behind category,
        tree.faultsWithin symbols bound .statement next = [] := by
  rw [faultsWithin_succ hnode]
  simp only [List.append_eq_nil_iff, List.flatMap_eq_nil_iff, Option.mem_toList,
    Prod.forall, and_assoc]

/-- At an expression the type is asked for before anything else. -/
theorem faultsWithin_expression (hnode : tree.get? id = some node) :
    tree.faultsWithin symbols (bound + 1) .expression id =
      (node.mark id).faults ++
        ((if node.form.category = .expression then []
          else [.malformed (.misplaced .expression node.form)]) ++
          ((node.form.parts.flatMap fun part =>
            tree.faultsWithin symbols bound part.1 part.2) ++
            node.form.name?.toList.flatMap (symbols.faults · node.line))) := by
  rw [faultsWithin_succ hnode, Node.behind, List.flatMap_nil, List.append_nil,
    List.append_assoc, Node.entryFaults, List.append_assoc]
  rfl

/-! ## Walks without faults -/

theorem exprWithin_exists
    (hfaults : tree.faultsWithin symbols bound .expression id = []) :
    ∃ expr, tree.exprWithin bound id = .ok expr := by
  induction bound generalizing id with
  | zero => simp [faultsWithin] at hfaults
  | succ bound ih =>
      obtain ⟨node, hnode⟩ := node_of_faultsWithin hfaults
      obtain ⟨⟨hentry, hparts⟩, -⟩ :=
        (faultsWithin_succ_eq_nil_iff hnode).mp hfaults
      obtain ⟨phrase, hphrase⟩ := exprAssembled_exists (node.mark id)
        (Node.category_of_entryFaults hentry) fun part hmem =>
          ih (hparts _ hmem)
      exact ⟨phrase, exprWithin_succ_eq_ok_iff.mpr ⟨node, hnode, hphrase⟩⟩

theorem blockWithin_exists
    (hfaults : tree.faultsWithin symbols bound .statement id = []) :
    ∃ block, tree.blockWithin bound id = .ok block := by
  induction bound generalizing id with
  | zero => simp [faultsWithin] at hfaults
  | succ bound ih =>
      obtain ⟨node, hnode⟩ := node_of_faultsWithin hfaults
      obtain ⟨⟨hentry, hparts⟩, -, hbehind⟩ :=
        (faultsWithin_succ_eq_nil_iff hnode).mp hfaults
      obtain ⟨first, hfirst⟩ := stmtAssembled_exists (node.mark id)
        (Node.category_of_entryFaults hentry)
          (fun part hmem => exprWithin_exists (hparts _ hmem))
        fun part hmem => ih (hparts _ hmem)
      cases hsibling : node.sibling with
      | none =>
          exact ⟨_, blockWithin_succ_eq_ok_iff.mpr
            ⟨node, first, .nil, hnode, hfirst, .inl ⟨hsibling, rfl⟩, rfl⟩⟩
      | some next =>
          obtain ⟨rest, hrest⟩ :=
            ih (hbehind next (by simp [Node.behind, hsibling]))
          exact ⟨_, blockWithin_succ_eq_ok_iff.mpr
            ⟨node, first, rest, hnode, hfirst,
              .inr ⟨next, hsibling, hrest⟩, rfl⟩⟩

/-! ## Walks that unfold a tree -/

section Assembled

variable {expr : NodeId → Except Fault (Expr Mark)}
  {block : NodeId → Except Fault (Block Mark)} {mark : Mark} {form : Form}
  (faults : Category → NodeId → List GenerationError)

theorem ExprAssembled.faults_eq {phrase : Expr Mark}
    (hphrase : ExprAssembled expr mark form phrase)
    (hexpr : ∀ part found, expr part = .ok found →
      faults .expression part = found.faults symbols) :
    phrase.faults symbols =
      mark.faults ++ (form.parts.flatMap fun part => faults part.1 part.2) ++
        form.name?.toList.flatMap (symbols.faults · mark.line) := by
  cases hphrase with
  | const value => simp [Expr.faults, Form.parts, Form.name?]
  | var name => simp [Expr.faults, Form.parts, Form.name?]
  | op hleft hright =>
      simp [Expr.faults, Form.parts, Form.name?, hexpr _ _ hleft,
        hexpr _ _ hright]

theorem StmtAssembled.faults_eq {phrase : Stmt Mark}
    (hphrase : StmtAssembled expr block mark form phrase)
    (hexpr : ∀ part found, expr part = .ok found →
      faults .expression part = found.faults symbols)
    (hblock : ∀ part found, block part = .ok found →
      faults .statement part = found.faults symbols) :
    phrase.faults symbols =
      (form.parts.flatMap fun part => faults part.1 part.2) ++
        form.name?.toList.flatMap (symbols.faults · mark.line) := by
  cases hphrase with
  | read name => simp [Stmt.faults, Form.parts, Form.name?]
  | assign hvalue =>
      simp [Stmt.faults, Form.parts, Form.name?, hexpr _ _ hvalue]
  | write hvalue => simp [Stmt.faults, Form.parts, Form.name?, hexpr _ _ hvalue]
  | ifThen htest hthen =>
      simp [Stmt.faults, Form.parts, Form.name?, hexpr _ _ htest,
        hblock _ _ hthen]
  | ifElse htest hthen helse =>
      simp [Stmt.faults, Form.parts, Form.name?, hexpr _ _ htest,
        hblock _ _ hthen, hblock _ _ helse]
  | repeatUntil hbody htest =>
      simp [Stmt.faults, Form.parts, Form.name?, hblock _ _ hbody,
        hexpr _ _ htest]

end Assembled

theorem faultsWithin_of_expr {expr : Expr Mark}
    (hexpr : tree.exprWithin bound id = .ok expr) :
    tree.faultsWithin symbols bound .expression id = expr.faults symbols := by
  induction bound generalizing id expr with
  | zero => simp [exprWithin] at hexpr
  | succ bound ih =>
      obtain ⟨node, hnode, hassembled⟩ := exprWithin_succ_eq_ok_iff.mp hexpr
      rw [faultsWithin_succ hnode,
        hassembled.faults_eq (tree.faultsWithin symbols bound)
          fun _ _ hfound => ih hfound,
        Node.entryFaults_expression hassembled.category_eq id]
      simp [Node.behind, Node.mark]

theorem faultsWithin_of_block {block : Block Mark}
    (hblock : tree.blockWithin bound id = .ok block) :
    tree.faultsWithin symbols bound .statement id = block.faults symbols := by
  induction bound generalizing id block with
  | zero => simp [blockWithin] at hblock
  | succ bound ih =>
      obtain ⟨node, first, rest, hnode, hfirst, hrest, rfl⟩ :=
        blockWithin_succ_eq_ok_iff.mp hblock
      have hbehind : (node.behind .statement).flatMap
          (tree.faultsWithin symbols bound .statement) =
            rest.faults symbols := by
        rcases hrest with ⟨hsibling, rfl⟩ | ⟨next, hsibling, hnext⟩
        · simp [Node.behind, hsibling, Block.faults]
        · simp [Node.behind, hsibling, ih hnext]
      rw [faultsWithin_succ hnode, hbehind, Block.faults,
        hfirst.faults_eq (tree.faultsWithin symbols bound)
          (fun _ _ hfound => faultsWithin_of_expr hfound)
            fun _ _ hfound => ih hfound]
      simp [Node.entryFaults, hfirst.category_eq, Node.mark]

/-- The faults that a walk over the program can come to. -/
def faults (tree : Tree) (symbols : SymbolTable) : List GenerationError :=
  tree.root.toList.flatMap
    (tree.faultsWithin symbols (tree.size + 1) .statement)

theorem program_exists_of_faults (hfaults : tree.faults symbols = []) :
    ∃ program, tree.program = .ok program := by
  unfold faults at hfaults
  unfold program
  cases hroot : tree.root with
  | none => exact ⟨_, rfl⟩
  | some root =>
      rw [hroot] at hfaults
      exact blockWithin_exists (by simpa using hfaults)

theorem faults_of_program {program : Block Mark}
    (hprogram : tree.program = .ok program) :
    tree.faults symbols = program.faults symbols := by
  unfold Tree.program at hprogram
  unfold faults
  cases hroot : tree.root with
  | none =>
      rw [hroot] at hprogram
      obtain rfl := Except.ok.inj hprogram
      rfl
  | some root =>
      rw [hroot] at hprogram
      simp [faultsWithin_of_block hprogram]

end Tree

end TinyCompiler
