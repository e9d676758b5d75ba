import TinyCompiler.Proofs.EmittingActions

/-!
# Lowering emits the layout

A walk that lowers a tree fails at the first of its faults, and without a fault
it appends the code of the layout of what it unfolds.  Jumps that were emitted
without a target have been patched by then, so nothing is left pending that was
not pending before.
-/

namespace TinyCompiler

/-! ## Nodes -/

namespace Tree

/-- The expression at a node; any other where a walk does not come to its
end. -/
def exprAt (tree : Tree) (bound : Nat) (id : NodeId) : Expr Mark :=
  (tree.exprWithin bound id).toOption.getD (.const ⟨id, 0, .void⟩ 0)

/-- The block at a node; any other where a walk does not come to its end. -/
def blockAt (tree : Tree) (bound : Nat) (id : NodeId) : Block Mark :=
  (tree.blockWithin bound id).toOption.getD .nil

/-- The rest of a sequence that goes on at a node, if there is one. -/
def restAt (tree : Tree) (bound : Nat) : Option NodeId → Block Mark
  | none => .nil
  | some next => tree.blockAt bound next

variable {tree : Tree} {bound : Nat} {id : NodeId}

theorem exprAt_eq {expr : Expr Mark}
    (hexpr : tree.exprWithin bound id = .ok expr) :
    tree.exprAt bound id = expr := by
  rw [exprAt, hexpr]
  rfl

theorem blockAt_eq {block : Block Mark}
    (hblock : tree.blockWithin bound id = .ok block) :
    tree.blockAt bound id = block := by
  rw [blockAt, hblock]
  rfl

theorem restAt_root {program : Block Mark}
    (hprogram : tree.program = .ok program) :
    tree.restAt (tree.size + 1) tree.root = program := by
  unfold Tree.program at hprogram
  cases hroot : tree.root with
  | none =>
      rw [hroot] at hprogram
      exact Except.ok.inj hprogram
  | some root =>
      rw [hroot] at hprogram
      exact blockAt_eq hprogram

theorem exprAt_spec {symbols : SymbolTable}
    (hfaults : tree.faultsWithin symbols bound .expression id = []) :
    tree.exprWithin bound id = .ok (tree.exprAt bound id) := by
  obtain ⟨expr, hexpr⟩ := exprWithin_exists hfaults
  rw [exprAt_eq hexpr, hexpr]

theorem blockAt_spec {symbols : SymbolTable}
    (hfaults : tree.faultsWithin symbols bound .statement id = []) :
    tree.blockWithin bound id = .ok (tree.blockAt bound id) := by
  obtain ⟨block, hblock⟩ := blockWithin_exists hfaults
  rw [blockAt_eq hblock, hblock]

/-- Without faults, what stands at a node is put together from what stands at
its parts and behind it. -/
theorem blockAt_cons {symbols : SymbolTable} {node : Node} {first : Stmt Mark}
    (hnode : tree.get? id = some node)
    (hfirst : StmtAssembled (fun part => .ok (tree.exprAt bound part))
      (fun part => .ok (tree.blockAt bound part)) (node.mark id)
        node.form first)
    (hfaults : tree.faultsWithin symbols (bound + 1) .statement id = []) :
    tree.blockAt (bound + 1) id =
      .cons first (tree.restAt bound node.sibling) := by
  obtain ⟨⟨-, hparts⟩, -, hbehind⟩ :=
    (faultsWithin_succ_eq_nil_iff hnode).mp hfaults
  refine blockAt_eq
    (blockWithin_succ_eq_ok_iff.mpr ⟨node, first, _, hnode, ?_, ?_, rfl⟩)
  · exact hfirst.congr (fun part hmem => exprAt_spec (hparts _ hmem))
      fun part hmem => blockAt_spec (hparts _ hmem)
  · cases hsibling : node.sibling with
    | none => exact .inl ⟨rfl, rfl⟩
    | some next =>
        exact .inr ⟨next, rfl,
          blockAt_spec (hbehind next (by simp [Node.behind, hsibling]))⟩

end Tree

namespace Generator

theorem ofTree_node {tree : Tree} {id : NodeId} {node : Node}
    (hnode : tree.get? id = some node) (next : Node → Action α) :
    (ofTree (tree.node id) >>= next) = next node := by
  rw [Tree.node, hnode]
  rfl

/-- An action on a node fails where there is no node. -/
theorem atNode_meets {tree : Tree} {bound : Nat}
    {category : Category} {id : NodeId} {next : Node → Action α}
    {before : Generator} {post : α → Generator → Prop}
    (hnext : ∀ node, tree.get? id = some node → Meets (next node) before
      (tree.faultsWithin before.symbols (bound + 1) category id) post) :
    Meets (ofTree (tree.node id) >>= next) before
      (tree.faultsWithin before.symbols (bound + 1) category id) post := by
  cases hnode : tree.get? id with
  | none =>
      rw [Tree.faultsWithin, hnode, Tree.node, hnode]
      exact ⟨before, rfl⟩
  | some node =>
      rw [ofTree_node hnode]
      exact hnext node hnode

/-! ## Expressions -/

section Expressions

variable {tree : Tree} {bound : Nat} {id : NodeId}

/-- The action lowers what a walk within a bound finds at a node. -/
def LowersExpr (tree : Tree) (bound : Nat) (id : NodeId)
    (action : Action Unit) : Prop :=
  ∀ before, Lowers action before
    (tree.faultsWithin before.symbols bound .expression id)
    ((tree.exprAt bound id).code before.symbols.locate before.nextCell)
    ((tree.exprAt bound id).peak before.scratchDepth)

theorem spill_lowers {code : Action Unit}
    (hcode : LowersExpr tree bound id code) (before : Generator) :
    Meets (spill code) before
      (tree.faultsWithin before.symbols bound .expression id)
      fun operand after =>
        operand = .memory (before.nextCell + 1) ∧
          Emits before after (.store before.nextCell ::
            ((tree.exprAt bound id).code before.symbols.locate
              (before.nextCell + 1) ++
              [.store (before.nextCell + 1), .load before.nextCell])) []
            (max (before.scratchDepth + 2)
              ((tree.exprAt bound id).peak (before.scratchDepth + 1))) := by
  refine spill_meets fun opened hsymbols hdepth => ?_
  have hopened := hcode opened
  have hcell : opened.nextCell = before.nextCell + 1 := by
    unfold nextCell
    rw [hsymbols, hdepth]
    rfl
  rwa [hsymbols, hdepth, hcell] at hopened

/-- A type that is demanded twice is missing once. -/
theorem demandType_bind_meets {mark : Mark} {action : Action α}
    {before : Generator} {faults : List GenerationError}
    {post : α → Generator → Prop}
    (haction : Meets action before (mark.faults ++ faults) post) :
    Meets (do
        mark.demandType
        action)
      before (mark.faults ++ faults) post := by
  have hdemand := demandType_meets mark before
  unfold Mark.faults at hdemand haction ⊢
  by_cases hvoid : mark.type = .void
  · rw [if_pos hvoid] at hdemand ⊢
    obtain ⟨after, hrun⟩ := hdemand
    exact ⟨after, bind_apply_of_error hrun _⟩
  · rw [if_neg hvoid] at hdemand haction ⊢
    exact hdemand.bind_first fun _ _ hafter => hafter ▸ haction

/-- A right operand that has to be computed is lowered above the cell that keeps
the left value. -/
theorem operandAt_meets {code : Action Unit}
    (hcode : LowersExpr tree (bound + 1) id code) (before : Generator) :
    Meets (operandAt tree code id) before
      (tree.faultsWithin before.symbols (bound + 1) .expression id)
          fun operand after =>
        operand = (tree.exprAt (bound + 1) id).operand before.symbols.locate
          before.nextCell ∧
        Emits before after
          ((tree.exprAt (bound + 1) id).operandCode
            ((tree.exprAt (bound + 1) id).code before.symbols.locate
              (before.nextCell + 1))
            before.nextCell) []
          ((tree.exprAt (bound + 1) id).operandPeak
            ((tree.exprAt (bound + 1) id).peak (before.scratchDepth + 1))
            before.scratchDepth) := by
  refine atNode_meets fun node hnode => ?_
  cases hform : node.form with
  | const value =>
      have hexpr : tree.exprWithin (bound + 1) id =
          .ok (.const (node.mark id) value) :=
        Tree.exprWithin_succ_eq_ok_iff.mpr ⟨node, hnode, hform ▸ .const value⟩
      rw [Tree.faultsWithin_of_expr hexpr, Tree.exprAt_eq hexpr]
      refine (demandType_meets (node.mark id) before).bind_last
        fun _ _ hafter => ?_
      subst hafter
      exact meets_pure ⟨rfl, .refl _⟩
  | var name =>
      have hexpr : tree.exprWithin (bound + 1) id =
          .ok (.var (node.mark id) name) :=
        Tree.exprWithin_succ_eq_ok_iff.mpr ⟨node, hnode, hform ▸ .var name⟩
      rw [Tree.faultsWithin_of_expr hexpr, Tree.exprAt_eq hexpr]
      refine (demandType_meets (node.mark id) before).bind fun _ _ hafter => ?_
      subst hafter
      refine (locationOf_meets name node.line _).bind_last
        fun location _ hlocation => ?_
      obtain ⟨rfl, rfl⟩ := hlocation
      exact meets_pure ⟨rfl, .refl _⟩
  | _ =>
      have hspill := spill_lowers hcode before
      rw [Tree.faultsWithin_expression hnode] at hspill
      have hmeets := demandType_bind_meets hspill
      rw [← Tree.faultsWithin_expression hnode] at hmeets
      refine hmeets.imp_of_nil fun hfaults operand after hafter => ?_
      obtain ⟨same, hsame, hassembled⟩ :=
        Tree.exprWithin_succ_eq_ok_iff.mp (Tree.exprAt_spec hfaults)
      obtain rfl := Option.some.inj (hnode.symm.trans hsame)
      -- What has no faults here is an operator and its operands.
      rw [hform] at hassembled
      generalize tree.exprAt (bound + 1) id = expr at hafter hassembled ⊢
      cases hassembled <;> exact hafter

theorem const_lowers (mark : Mark) (value : Int32) (before : Generator) :
    Lowers (do
        mark.demandType
        let _ ← emit (.loadImmediate value))
      before ((Expr.const mark value).faults before.symbols)
      ((Expr.const mark value).code before.symbols.locate before.nextCell)
      ((Expr.const mark value).peak before.scratchDepth) := by
  refine (demandType_meets mark before).bind_last fun _ _ hafter => ?_
  subst hafter
  exact (emit_meets _ _).bind_first fun _ _ hemits => meets_pure hemits

theorem var_lowers (mark : Mark) (name : String) (before : Generator) :
    Lowers (do
        mark.demandType
        let location ← locationOf name mark.line
        let _ ← emit (.load location))
      before ((Expr.var mark name).faults before.symbols)
      ((Expr.var mark name).code before.symbols.locate before.nextCell)
      ((Expr.var mark name).peak before.scratchDepth) := by
  refine (demandType_meets mark before).bind fun _ _ hafter => ?_
  subst hafter
  refine (locationOf_meets name mark.line _).bind_last
    fun location _ hlocation => ?_
  obtain ⟨rfl, rfl⟩ := hlocation
  exact (emit_meets _ _).bind_first fun _ _ hemits => meets_pure hemits

theorem operation_lowers
    (hlower : ∀ part,
      LowersExpr tree bound part (lowerExprWithin tree bound part))
    (mark : Mark) (operator : Operator) (left right : NodeId)
    (before : Generator) :
    Lowers (do
        mark.demandType
        lowerExprWithin tree bound left
        let operand ← operandAt tree (lowerExprWithin tree bound right) right
        let _ ← emit (.operate operator operand))
      before
      (mark.faults ++
        (tree.faultsWithin before.symbols bound .expression left ++
        tree.faultsWithin before.symbols bound .expression right))
      ((Expr.op mark operator (tree.exprAt bound left)
        (tree.exprAt bound right)).code
        before.symbols.locate before.nextCell)
      ((Expr.op mark operator (tree.exprAt bound left)
        (tree.exprAt bound right)).peak
        before.scratchDepth) := by
  refine (demandType_meets mark before).bind fun _ _ hafter => ?_
  subst hafter
  cases bound with
  | zero => exact ⟨_, rfl⟩
  | succ bound =>
      refine (hlower left _).bind fun _ middle hleft => ?_
      rw [← hleft.symbols]
      refine (operandAt_meets (hlower right) middle).bind_last
        fun operand loaded hloaded => ?_
      obtain ⟨rfl, hloaded⟩ := hloaded
      refine (emit_meets _ loaded).bind_first
        fun _ after hafter => meets_pure ?_
      have hall := hleft.trans (hloaded.trans hafter)
      simpa [Expr.code, Expr.peak, hleft.symbols, hleft.scratchDepth,
        hleft.sameFrame.nextCell_eq] using hall

theorem lowerExprWithin_lowers (tree : Tree) (bound : Nat) (id : NodeId) :
    LowersExpr tree bound id (lowerExprWithin tree bound id) := by
  induction bound generalizing id with
  | zero => exact fun before => ⟨before, rfl⟩
  | succ bound ih =>
      intro before
      refine atNode_meets fun node hnode => ?_
      cases hform : node.form with
      | const value =>
          have hexpr : tree.exprWithin (bound + 1) id =
              .ok (.const (node.mark id) value) :=
            Tree.exprWithin_succ_eq_ok_iff.mpr
              ⟨node, hnode, hform ▸ .const value⟩
          rw [Tree.faultsWithin_of_expr hexpr, Tree.exprAt_eq hexpr]
          exact const_lowers (node.mark id) value before
      | var name =>
          have hexpr : tree.exprWithin (bound + 1) id =
              .ok (.var (node.mark id) name) :=
            Tree.exprWithin_succ_eq_ok_iff.mpr ⟨node, hnode, hform ▸ .var name⟩
          rw [Tree.faultsWithin_of_expr hexpr, Tree.exprAt_eq hexpr]
          exact var_lowers (node.mark id) name before
      | op operator left right =>
          have hfaults : tree.faultsWithin before.symbols (bound + 1)
              .expression id =
              (node.mark id).faults ++
                (tree.faultsWithin before.symbols bound .expression left ++
                  tree.faultsWithin before.symbols bound
                    .expression right) := by
            rw [Tree.faultsWithin_expression hnode, hform]
            simp [Form.category, Form.parts, Form.name?]
          rw [hfaults]
          refine (operation_lowers ih (node.mark id) operator left right
            before).imp_of_nil
            fun hnil _ after hafter => ?_
          obtain ⟨-, hleft, hright⟩ := by simpa using hnil
          have hexpr : tree.exprWithin (bound + 1) id =
              .ok (.op (node.mark id) operator
              (tree.exprAt bound left) (tree.exprAt bound right)) :=
            Tree.exprWithin_succ_eq_ok_iff.mpr ⟨node, hnode,
              hform ▸ .op (Tree.exprAt_spec hleft) (Tree.exprAt_spec hright)⟩
          rwa [Tree.exprAt_eq hexpr]
      | _ =>
          rw [Tree.faultsWithin_expression hnode, hform]
          exact (demandType_meets (node.mark id) before).bind
            fun _ after _ => ⟨after, rfl⟩

end Expressions

/-! ## Statements -/

section Branches

variable {test thenPart elsePart : Action Unit} {before closed : Generator}
  {testFaults thenFaults elseFaults faults : List GenerationError}
  {testCode thenCode elseCode first behind : List Instruction}
  {testPeak thenPeak elsePeak peak : Nat} {rest : Nat → Action α}
  {post : α → Generator → Prop}

/-- The jump over the then part waits when that part has been emitted. -/
theorem skip_meets (htest : Lowers test before testFaults testCode testPeak)
    (hthen : ∀ opened, SameFrame before opened →
      opened.nextAddress = before.nextAddress + testCode.length + 1 →
        Lowers thenPart opened thenFaults thenCode thenPeak)
    (hrest : ∀ closed,
      Emits before closed (testCode ++ .jumpIfZero placeholder :: thenCode)
      [before.nextAddress + testCode.length] (max testPeak thenPeak) →
        Meets (rest (before.nextAddress + testCode.length)) closed
          faults post) :
    Meets (do
        test
        let skipThen ← emitPending .jumpIfZero
        thenPart
        rest skipThen)
      before (testFaults ++ (thenFaults ++ faults)) post := by
  refine htest.bind fun _ tested htested => ?_
  refine (emitPending_meets _ tested).bind_first fun _ opened hopened => ?_
  obtain ⟨rfl, hopened⟩ := hopened
  have hjump := htested.trans hopened
  have hstart := hjump.nextAddress_eq
  simp only [List.length_append, List.length_singleton] at hstart
  refine (hthen opened hjump.sameFrame (by omega)).bind
    fun _ closed hclosed => ?_
  rw [htested.nextAddress_eq]
  apply hrest closed
  simpa [htested.nextAddress_eq] using hjump.trans hclosed

/-- The last jump that waits is pointed to the end of the code. -/
theorem close_meets {jump : Instruction}
    (hemits : Emits before closed (first ++ jump :: behind)
      [before.nextAddress + first.length] peak) :
    Meets (do patch (before.nextAddress + first.length) (← get).nextAddress)
      closed []
      fun _ after => Emits before after
        (first ++ jump.retarget
          (before.nextAddress + first.length + 1 + behind.length) ::
          behind) [] peak := by
  apply meets_get_bind
  have hend : closed.nextAddress =
      before.nextAddress + first.length + 1 + behind.length := by
    rw [hemits.nextAddress_eq, List.length_append, List.length_cons]
    omega
  rw [hend]
  refine (patch_meets hemits (by simp) _).imp fun _ after hafter => ?_
  simpa using hafter

/-- The jump over the then part is pointed behind the jump over the else part,
which waits in its turn. -/
theorem turn_meets
    (hemits : Emits before closed (first ++ .jumpIfZero placeholder :: behind)
      [before.nextAddress + first.length] peak)
    (hrest : ∀ turned, Emits before turned
      ((first ++ .jumpIfZero
        (before.nextAddress + first.length + 1 + behind.length + 1) ::
        behind) ++ [.jump placeholder])
      [before.nextAddress + (first.length + 1 + behind.length)] peak →
        Meets (rest (before.nextAddress + (first.length + 1 + behind.length)))
          turned faults
          post) :
    Meets (do
        let skipElse ← emitPending .jump
        patch (before.nextAddress + first.length) (← get).nextAddress
        rest skipElse)
      closed faults post := by
  have hend := hemits.nextAddress_eq
  simp only [List.length_append, List.length_cons] at hend
  refine (emitPending_meets _ closed).bind_first fun _ opened hopened => ?_
  obtain ⟨rfl, hopened⟩ := hopened
  apply meets_get_bind
  have hboth := hemits.trans hopened
  have haddress := hboth.nextAddress_eq
  simp only [List.length_append, List.length_cons, List.length_nil] at haddress
  have hlast : closed.nextAddress =
      before.nextAddress + (first.length + 1 + behind.length) := by omega
  have htarget : opened.nextAddress =
      before.nextAddress + first.length + 1 + behind.length + 1 := by omega
  rw [hlast] at hboth ⊢
  rw [htarget]
  simp only [List.append_assoc, List.cons_append, List.nil_append] at hboth
  -- Two jumps wait here, the later one in front.
  refine (patch_meets hboth (by simp) _).bind_first fun _ turned hturned =>
    hrest turned ?_
  have herase : [before.nextAddress + (first.length + 1 + behind.length),
      before.nextAddress + first.length].erase
        (before.nextAddress + first.length) =
        [before.nextAddress + (first.length + 1 + behind.length)] := by
    rw [List.erase_cons_tail (by simp; omega), List.erase_cons_head]
  rw [herase] at hturned
  simpa [Instruction.retarget] using hturned

theorem branch_lowers (htest : Lowers test before testFaults testCode testPeak)
    (hthen : ∀ opened, SameFrame before opened →
      opened.nextAddress = before.nextAddress + testCode.length + 1 →
        Lowers thenPart opened thenFaults thenCode thenPeak) :
    Lowers (do
        test
        let skipThen ← emitPending .jumpIfZero
        thenPart
        patch skipThen (← get).nextAddress)
      before (testFaults ++ thenFaults)
        (branchCode before.nextAddress testCode thenCode)
      (max testPeak thenPeak) := by
  rw [← List.append_nil thenFaults]
  exact skip_meets htest hthen fun _ hclosed => close_meets hclosed

theorem choice_lowers (htest : Lowers test before testFaults testCode testPeak)
    (hthen : ∀ opened, SameFrame before opened →
      opened.nextAddress = before.nextAddress + testCode.length + 1 →
        Lowers thenPart opened thenFaults thenCode thenPeak)
    (helse : ∀ opened, SameFrame before opened →
      opened.nextAddress =
        before.nextAddress + testCode.length + 1 + thenCode.length + 1 →
        Lowers elsePart opened elseFaults elseCode elsePeak) :
    Lowers (do
        test
        let skipThen ← emitPending .jumpIfZero
        thenPart
        let skipElse ← emitPending .jump
        patch skipThen (← get).nextAddress
        elsePart
        patch skipElse (← get).nextAddress)
      before (testFaults ++ (thenFaults ++ elseFaults))
      (choiceCode before.nextAddress testCode thenCode elseCode)
      (max testPeak (max thenPeak elsePeak)) := by
  refine skip_meets htest hthen fun closed hclosed => turn_meets hclosed
    fun turned hturned => ?_
  have hstart := hturned.nextAddress_eq
  simp only [List.length_append, List.length_cons, List.length_nil] at hstart
  refine (helse turned hturned.sameFrame (by omega)).bind_last
    fun _ final hfinal => ?_
  have hall := hturned.trans hfinal
  rw [List.append_assoc, List.singleton_append] at hall
  have hlength : (testCode ++ .jumpIfZero
      (before.nextAddress + testCode.length + 1 + thenCode.length + 1) ::
        thenCode).length =
        testCode.length + 1 + thenCode.length := by
    rw [List.length_append, List.length_cons]
    omega
  have htarget : before.nextAddress +
      (testCode.length + 1 + thenCode.length) + 1 +
      elseCode.length =
        before.nextAddress + testCode.length + 1 + thenCode.length + 1 +
          elseCode.length := by
    omega
  rw [← hlength] at hall ⊢
  refine (close_meets hall).imp fun _ after hafter => ?_
  rw [hlength, htarget] at hafter
  simpa [choiceCode, Instruction.retarget, Nat.max_assoc] using hafter

end Branches

section Simple

variable {value body test : Action Unit} {before : Generator}
  {faults bodyFaults testFaults : List GenerationError}
  {code bodyCode testCode : List Instruction} {peak bodyPeak testPeak : Nat}

theorem read_lowers (name : String) (line : Nat) (before : Generator) :
    Lowers (do
        let location ← locationOf name line
        let _ ← emit (.read location))
      before (before.symbols.faults name line)
        [.read (before.symbols.locate name)] 0 := by
  refine (locationOf_meets name line before).bind_last
    fun location _ hlocation => ?_
  obtain ⟨rfl, rfl⟩ := hlocation
  exact (emit_meets _ _).bind_first fun _ _ hemits => meets_pure hemits

theorem assign_lowers (hvalue : Lowers value before faults code peak)
    (name : String) (line : Nat) :
    Lowers (do
        value
        let location ← locationOf name line
        let _ ← emit (.store location))
      before (faults ++ before.symbols.faults name line)
      (code ++ [.store (before.symbols.locate name)]) peak := by
  refine hvalue.bind fun _ middle hmiddle => ?_
  rw [← hmiddle.symbols]
  refine (locationOf_meets name line middle).bind_last
    fun location _ hlocation => ?_
  obtain ⟨rfl, rfl⟩ := hlocation
  refine (emit_meets _ _).bind_first fun _ after hafter => meets_pure ?_
  simpa [hmiddle.symbols] using hmiddle.trans hafter

theorem write_lowers (hvalue : Lowers value before faults code peak) :
    Lowers (do
        value
        let _ ← emit .write)
      before faults (code ++ [.write]) peak := by
  refine hvalue.bind_last fun _ middle hmiddle => ?_
  refine (emit_meets _ _).bind_first fun _ after hafter => meets_pure ?_
  simpa using hmiddle.trans hafter

/-- The code of a loop: the jump back has its target from the beginning. -/
theorem loop_lowers (hbody : Lowers body before bodyFaults bodyCode bodyPeak)
    (htest : ∀ tested, SameFrame before tested →
      Lowers test tested testFaults testCode testPeak) :
    Lowers (do
        let start := (← get).nextAddress
        body
        test
        let _ ← emit (.jumpIfZero start))
      before (bodyFaults ++ testFaults)
      (bodyCode ++ (testCode ++ [.jumpIfZero before.nextAddress]))
      (max bodyPeak testPeak) := by
  apply meets_get_bind
  refine hbody.bind fun _ middle hmiddle => ?_
  refine (htest middle hmiddle.sameFrame).bind_last fun _ tested htested => ?_
  refine (emit_meets _ _).bind_first fun _ after hafter => meets_pure ?_
  simpa using hmiddle.trans (htested.trans hafter)

end Simple

section Statements

variable {tree : Tree} {bound : Nat}

/-- The action lowers the sequence that a walk within a bound finds from a node
on. -/
def LowersBlock (tree : Tree) (bound : Nat) (id : NodeId)
    (action : Action Unit) : Prop :=
  ∀ before, Lowers action before
    (tree.faultsWithin before.symbols bound .statement id)
    ((tree.blockAt bound id).code before.symbols.locate before.nextCell
      before.nextAddress)
    ((tree.blockAt bound id).peak before.scratchDepth)

theorem LowersExpr.later {id : NodeId} {action : Action Unit}
    {before opened : Generator} (hlowers : LowersExpr tree bound id action)
    (hframe : SameFrame before opened) :
    Lowers action opened (tree.faultsWithin before.symbols bound .expression id)
      ((tree.exprAt bound id).code before.symbols.locate before.nextCell)
      ((tree.exprAt bound id).peak before.scratchDepth) := by
  have hopened := hlowers opened
  rwa [hframe.1, hframe.2, hframe.nextCell_eq] at hopened

theorem LowersBlock.later {id : NodeId} {action : Action Unit}
    {before opened : Generator} (hlowers : LowersBlock tree bound id action)
    (hframe : SameFrame before opened) {address : Nat}
    (haddress : opened.nextAddress = address) :
    Lowers action opened (tree.faultsWithin before.symbols bound .statement id)
      ((tree.blockAt bound id).code before.symbols.locate
        before.nextCell address)
      ((tree.blockAt bound id).peak before.scratchDepth) := by
  have hopened := hlowers opened
  rwa [hframe.1, hframe.2, hframe.nextCell_eq, haddress] at hopened

theorem lowerForm_lowers
    (hblock : ∀ part,
      LowersBlock tree bound part (lowerBlockWithin tree bound part))
    {mark : Mark} {form : Form} {stmt : Stmt Mark}
    (hstmt : Tree.StmtAssembled (fun part => .ok (tree.exprAt bound part))
      (fun part => .ok (tree.blockAt bound part)) mark form stmt)
        (before : Generator) :
    Lowers
      (lowerForm (lowerExprWithin tree bound) (lowerBlockWithin tree bound)
        mark.line form)
      before
      ((form.parts.flatMap fun part =>
        tree.faultsWithin before.symbols bound part.1 part.2) ++
        form.name?.toList.flatMap (before.symbols.faults · mark.line))
      (stmt.code before.symbols.locate before.nextCell before.nextAddress)
      (stmt.peak before.scratchDepth) := by
  have hexpr := fun part => lowerExprWithin_lowers tree bound part
  cases hstmt with
  | read name =>
      exact (read_lowers name mark.line before).of_eq
        (by simp [Form.parts, Form.name?])
  | @assign name value _ hvalue =>
      obtain rfl := Except.ok.inj hvalue
      exact (assign_lowers (hexpr value before) name mark.line).of_eq
        (by simp [Form.parts, Form.name?])
  | @write value _ hvalue =>
      obtain rfl := Except.ok.inj hvalue
      exact (write_lowers (hexpr value before)).of_eq
        (by simp [Form.parts, Form.name?])
  | @ifThen test thenPart _ _ htest hthen =>
      obtain rfl := Except.ok.inj htest
      obtain rfl := Except.ok.inj hthen
      have hlowers := branch_lowers (hexpr test before)
        fun _ hframe haddress => (hblock thenPart).later hframe haddress
      exact hlowers.of_eq (by simp [Form.parts, Form.name?])
  | @ifElse test thenPart elsePart _ _ _ htest hthen helse =>
      obtain rfl := Except.ok.inj htest
      obtain rfl := Except.ok.inj hthen
      obtain rfl := Except.ok.inj helse
      have hlowers := choice_lowers (hexpr test before)
        (fun _ hframe haddress => (hblock thenPart).later hframe haddress)
        fun _ hframe haddress => (hblock elsePart).later hframe haddress
      exact hlowers.of_eq (by simp [Form.parts, Form.name?])
  | @repeatUntil body test _ _ hbody htest =>
      obtain rfl := Except.ok.inj hbody
      obtain rfl := Except.ok.inj htest
      have hlowers := loop_lowers (hblock body before) fun _ hframe =>
        (hexpr test).later hframe
      exact hlowers.of_eq (by simp [Form.parts, Form.name?])

/-- The rest of the sequence behind a node. -/
theorem behind_lowers
    (hblock : ∀ part,
      LowersBlock tree bound part (lowerBlockWithin tree bound part))
    (sibling : Option NodeId) (before : Generator) :
    Lowers (sibling.forM (lowerBlockWithin tree bound)) before
      (sibling.toList.flatMap
        (tree.faultsWithin before.symbols bound .statement))
      ((tree.restAt bound sibling).code before.symbols.locate before.nextCell
        before.nextAddress)
      ((tree.restAt bound sibling).peak before.scratchDepth) := by
  cases sibling with
  | none => exact meets_pure (.refl before)
  | some next => exact (hblock next before).of_eq (by simp)

theorem sequence_lowers {first : Stmt Mark} {rest : Block Mark}
    {here behind : Action Unit} {before : Generator}
    {faults restFaults : List GenerationError}
    (hfirst : Lowers here before faults
      (first.code before.symbols.locate before.nextCell before.nextAddress)
      (first.peak before.scratchDepth))
    (hrest : ∀ middle, SameFrame before middle → Lowers behind middle restFaults
      (rest.code before.symbols.locate before.nextCell middle.nextAddress)
      (rest.peak before.scratchDepth)) :
    Lowers (do
        here
        behind)
      before (faults ++ restFaults)
      ((Block.cons first rest).code before.symbols.locate before.nextCell
        before.nextAddress)
      ((Block.cons first rest).peak before.scratchDepth) := by
  refine hfirst.bind fun _ middle hmiddle => ?_
  have hnext := hrest middle hmiddle.sameFrame
  rw [hmiddle.nextAddress_eq] at hnext
  exact hnext.imp fun _ after hafter => hmiddle.trans hafter

theorem lowerBlockWithin_lowers (tree : Tree) (bound : Nat) (id : NodeId) :
    LowersBlock tree bound id (lowerBlockWithin tree bound id) := by
  induction bound generalizing id with
  | zero => exact fun before => ⟨before, rfl⟩
  | succ bound ih =>
      intro before
      refine atNode_meets fun node hnode => ?_
      have hfaults : tree.faultsWithin before.symbols (bound + 1)
          .statement id = _ :=
        Tree.faultsWithin_succ hnode
      by_cases hcategory : node.form.category = .statement
      · obtain ⟨first, hfirst⟩ : ∃ first, Tree.StmtAssembled
            (fun part => .ok (tree.exprAt bound part))
            (fun part => .ok (tree.blockAt bound part)) (node.mark id)
              node.form first :=
          Tree.stmtAssembled_exists (node.mark id) hcategory
            (fun _ _ => ⟨_, rfl⟩)
            fun _ _ => ⟨_, rfl⟩
        have hlowers := sequence_lowers (lowerForm_lowers ih hfirst before)
          fun middle hframe => by
            have hrest := behind_lowers ih node.sibling middle
            rwa [hframe.1, hframe.2, hframe.nextCell_eq] at hrest
        rw [Node.entryFaults, if_pos hcategory, List.nil_append] at hfaults
        rw [hfaults]
        refine hlowers.imp_of_nil fun hnil _ after hafter => ?_
        rwa [Tree.blockAt_cons hnode hfirst (hfaults.trans hnil)]
      · have hmisplaced : lowerForm (lowerExprWithin tree bound)
            (lowerBlockWithin tree bound)
            node.line node.form =
              throw (.malformed (.misplaced .statement node.form)) := by
          cases hform : node.form <;> simp [hform, Form.category]
            at hcategory <;> rfl
        rw [hfaults, Node.entryFaults, if_neg hcategory, hmisplaced]
        exact ⟨before, rfl⟩

end Statements

end Generator

/-! ## Programs -/

theorem Generator.finish_meets {symbols : SymbolTable} {before : Generator}
    {code : List Instruction} {peak : Nat}
    (hemits : Emits (start symbols) before code [] peak) :
    Meets finish before [] fun program after =>
      program = ⟨(code ++ [Instruction.halt]).toArray, symbols.size + peak⟩ ∧
        after.pending = [] := by
  unfold finish
  refine (emit_meets .halt before).bind_first fun _ after hafter => ?_
  have hall := hemits.trans hafter
  apply meets_get_bind
  have hpending : after.pending = [] := hall.pending
  rw [hpending]
  refine meets_pure ⟨?_, hpending⟩
  have hcode : after.code.toList = code ++ [.halt] := by
    simpa [start] using hall.code
  have hpeak : after.peakDepth = peak := by simpa [start] using hall.peakDepth
  rw [← hcode, Array.toArray_toList, hpeak, hall.symbols]
  rfl

namespace Generator

/-- Lowering a tree fails at the first fault of the walk, and otherwise ends
with the program of the layout and with no jump that waits for a target. -/
theorem lowerProgram_meets (tree : Tree) (symbols : SymbolTable) :
    Meets (lowerProgram tree) (start symbols)
        (tree.faults symbols) fun result after =>
      ∃ program, tree.program = .ok program ∧
        result = Program.ofBlock symbols program ∧
        after.pending = [] := by
  have hwalk : Lowers (tree.root.forM (lowerBlock tree)) (start symbols)
      (tree.faults symbols)
      ((tree.restAt (tree.size + 1) tree.root).code symbols.locate
        symbols.size 0)
      ((tree.restAt (tree.size + 1) tree.root).peak 0) :=
    behind_lowers (lowerBlockWithin_lowers tree (tree.size + 1)) tree.root
      (start symbols)
  have hprogram : tree.faults symbols = [] →
      tree.program = .ok (tree.restAt (tree.size + 1) tree.root) := by
    intro hfaults
    obtain ⟨program, hprogram⟩ := Tree.program_exists_of_faults hfaults
    rw [hprogram, Tree.restAt_root hprogram]
  refine (hwalk.bind_last fun _ middle hmiddle =>
    finish_meets hmiddle).imp_of_nil
    fun hfaults result after hafter => ?_
  exact ⟨_, hprogram hfaults, hafter⟩

end Generator

/-- Generation fails exactly on faults of the walk, at the first of them. -/
theorem generate_eq_error_of_faults {tree : Tree} {symbols : SymbolTable}
    {fault : GenerationError} {rest : List GenerationError}
    (hfaults : tree.faults symbols = fault :: rest) :
    generate tree symbols = .error fault := by
  have hlower := Generator.lowerProgram_meets tree symbols
  rw [hfaults] at hlower
  obtain ⟨after, hrun⟩ := hlower
  unfold generate generateWithHistory
  rw [hrun]

/-- Without faults, generation gives the program of the layout. -/
theorem generate_eq_ok_of_faults {tree : Tree} {symbols : SymbolTable}
    (hfaults : tree.faults symbols = []) :
    ∃ program, tree.program = .ok program ∧
      generate tree symbols = .ok (Program.ofBlock symbols program) := by
  have hlower := Generator.lowerProgram_meets tree symbols
  rw [hfaults] at hlower
  obtain ⟨result, after, hrun, program, hprogram, rfl, -⟩ := hlower
  unfold generate generateWithHistory
  rw [hrun]
  exact ⟨program, hprogram, rfl⟩

/-- Generation from a tree that unfolds to a program fails exactly on faults of
the program, at the first of them, and otherwise gives the program of the
layout. -/
theorem generate_eq {tree : Tree} {program : Block Mark}
    (hprogram : tree.program = .ok program) (symbols : SymbolTable) :
    generate tree symbols =
      match program.faults symbols with
      | [] => .ok (Program.ofBlock symbols program)
      | fault :: _ => .error fault := by
  have hsame : tree.faults symbols = program.faults symbols :=
    Tree.faults_of_program hprogram
  cases hfaults : program.faults symbols with
  | nil =>
      obtain ⟨other, hother, hgenerate⟩ :=
        generate_eq_ok_of_faults (hsame.trans hfaults)
      obtain rfl := Except.ok.inj (hprogram.symm.trans hother)
      exact hgenerate
  | cons fault rest => exact generate_eq_error_of_faults (hsame.trans hfaults)

theorem generate_eq_ok {tree : Tree} {symbols : SymbolTable} {program : Program}
    (hgenerate : generate tree symbols = .ok program) :
    ∃ block, tree.program = .ok block ∧ block.faults symbols = [] ∧
      program = Program.ofBlock symbols block := by
  cases hfaults : tree.faults symbols with
  | nil =>
      obtain ⟨block, hblock, hprogram⟩ := generate_eq_ok_of_faults hfaults
      rw [hgenerate] at hprogram
      exact ⟨block, hblock, (Tree.faults_of_program hblock).symm.trans hfaults,
        Except.ok.inj hprogram⟩
  | cons fault rest =>
      rw [generate_eq_error_of_faults hfaults] at hgenerate
      cases hgenerate

end TinyCompiler
