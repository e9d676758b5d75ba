import TinyCompiler.Proofs.ExpressionExecution
import TinyCompiler.Proofs.JumpStructure

/-!
# The frame of expression code

Lowering an expression, or one that becomes a right operand, puts a block of
code behind what a generator has emitted and leaves the rest of the generator as
it was.  The block jumps nowhere and works above the scratch cells that are in
use, so wherever it stands and whatever the memory holds, the cells below keep
their values while it runs.  What it computes is the value of the expression on
the variables as the memory has them.
-/

namespace TinyCompiler

/-- The values that the variables of a table have in a memory. -/
def SymbolTable.valuesIn (symbols : SymbolTable) (memory : Array Int32)
    (name : String) :
    Int32 :=
  memory.getD (symbols.locate name) 0

/-! ## The cells of a block -/

section Cells

variable {symbols : SymbolTable} {location : Nat}

theorem Expr.mentions_code_lt {expr : Expr α}
    (hnames : ∀ name ∈ expr.names, symbols.locate name < symbols.size)
    {depth : Nat}
    (hmentions : Mentions
      (expr.code symbols.locate (symbols.size + depth)) location) :
    location < symbols.size + expr.peak depth := by
  rw [expr.peak_eq]
  rcases (expr.code_occupies symbols.locate (symbols.size + depth) location).mp
      hmentions with
    hgiven | ⟨hlow, hhigh⟩
  · obtain ⟨name, hname, rfl⟩ := List.mem_map.mp hgiven
    exact Nat.lt_add_right _ (hnames name hname)
  · rw [if_neg (by omega)]
    omega

theorem Expr.mentions_operandCode_lt {expr : Expr α}
    (hnames : ∀ name ∈ expr.names, symbols.locate name < symbols.size)
    {depth : Nat}
    (hmentions : Mentions
      (expr.operandCode (expr.code symbols.locate (symbols.size + depth + 1))
        (symbols.size + depth)) location) :
    location < symbols.size +
      expr.operandPeak (expr.peak (depth + 1)) depth := by
  cases expr with
  | const note value => simp [Expr.operandCode] at hmentions
  | var note name => simp [Expr.operandCode] at hmentions
  | op note operator left right =>
      simp only [Expr.operandCode, mentions_cons, mentions_append, mentions_nil,
        Instruction.locations, List.mem_singleton, or_false] at hmentions
      rw [Expr.operandPeak]
      rcases hmentions with rfl | hcode | rfl | rfl
      · omega
      · rw [Nat.add_assoc] at hcode
        have hinner := mentions_code_lt hnames hcode
        omega
      · omega
      · omega

end Cells

/-! ## Blocks -/

namespace Generator

/-- A block without jumps has been put behind the code, and nothing else has
changed but what scratch cells have been in use. -/
structure Appends (before after : Generator)
    (block : List Instruction) : Prop where
  code : after.code.toList = before.code.toList ++ block
  jumpFree : ∀ instruction ∈ block, instruction.targets = []
  symbols : after.symbols = before.symbols
  pending : after.pending = before.pending
  scratchDepth : after.scratchDepth = before.scratchDepth
  peakDepth : before.peakDepth ≤ after.peakDepth

theorem Emits.appends {before after : Generator} {block : List Instruction}
    {peak : Nat} (hemits : Emits before after block [] peak)
    (hstraight : ∀ instruction ∈ block,
      instruction.targets = [] ∧ instruction ≠ .halt) :
    before.Appends after block where
  code := hemits.code
  jumpFree instruction hmem := (hstraight instruction hmem).1
  symbols := hemits.symbols
  pending := hemits.pending
  scratchDepth := hemits.scratchDepth
  peakDepth := hemits.peakDepth ▸ Nat.le_max_left _ _

end Generator

section Frames

variable {before after : Generator} {expr : Expr Mark}
  {block : List Instruction}
  {operand : Operand} {program : Program} {state : Machine.State}

open Generator Machine

/-- The variables of an expression that has been lowered have cells below the
scratch cells, and these hold the values that are read from them. -/
theorem Expr.stores_valuesIn (hlawful : before.symbols.Lawful)
    (hfaults : expr.faults before.symbols = []) {depth : Nat}
    (hsize : before.symbols.size ≤ state.memory.size) :
    (∀ name ∈ expr.names, before.symbols.locate name < before.symbols.size) ∧
      state.Stores before.symbols.locate (before.symbols.size + depth)
        (before.symbols.valuesIn state.memory) expr.names := by
  have hbelow : ∀ name ∈ expr.names,
      before.symbols.locate name < before.symbols.size := by
    intro name hname
    have hsome :=
      ((expr.faults_eq_nil_iff before.symbols).mp hfaults).2 name hname
    obtain ⟨location, hlocation⟩ := Option.isSome_iff_exists.mp hsome
    rw [SymbolTable.locate_of_location? hlocation]
    exact hlawful.lt_size hlocation
  refine ⟨hbelow,
    fun name hname => ⟨Nat.lt_add_right _ (hbelow name hname), ?_⟩⟩
  have hcell := Nat.lt_of_lt_of_le (hbelow name hname) hsize
  simp [SymbolTable.valuesIn, hcell]

theorem Expr.code_frame (hlawful : before.symbols.Lawful)
    (hfaults : expr.faults before.symbols = [])
    (hemits : Emits before after
      (expr.code before.symbols.locate before.nextCell) []
      (expr.peak before.scratchDepth)) :
    ∃ block, before.Appends after block ∧
      ∀ (program : Program) (state : Machine.State),
        program.CodeAt state.counter block →
          before.symbols.size + after.peakDepth ≤ state.memory.size →
            Evaluates program (before.symbols.size + before.scratchDepth) state
              (state.counter + block.length)
              (expr.value? (before.symbols.valuesIn state.memory)) := by
  refine ⟨_, hemits.appends (expr.code_straight _ _),
    fun program state hcode hsize => ?_⟩
  have hpeak := hemits.peakDepth
  obtain ⟨hnames, hstores⟩ := stores_valuesIn hlawful hfaults
    (Nat.le_trans (Nat.le_add_right _ _) hsize)
  refine expr.code_evaluates hcode (fun location hmentions => ?_) hstores
  have hlocation := mentions_code_lt hnames hmentions
  omega

theorem Expr.operandCode_frame (hlawful : before.symbols.Lawful)
    (hfaults : expr.faults before.symbols = [])
    (hemits : Emits before after
      (expr.operandCode (expr.code before.symbols.locate (before.nextCell + 1))
        before.nextCell) []
      (expr.operandPeak (expr.peak (before.scratchDepth + 1))
        before.scratchDepth)) :
    ∃ block, before.Appends after block ∧
      ∀ (program : Program) (state : Machine.State),
        program.CodeAt state.counter block →
          before.symbols.size + after.peakDepth ≤ state.memory.size →
            Provides program (before.symbols.size + before.scratchDepth) state
              (state.counter + block.length)
              (expr.operand before.symbols.locate before.nextCell)
              (expr.value? (before.symbols.valuesIn state.memory)) := by
  refine ⟨_, hemits.appends
    (expr.operandCode_straight _ (expr.code_straight _ _)),
    fun program state hcode hsize => ?_⟩
  have hpeak := hemits.peakDepth
  obtain ⟨hnames, hstores⟩ := stores_valuesIn hlawful hfaults
    (Nat.le_trans (Nat.le_add_right _ _) hsize)
  refine expr.operandCode_provides hcode (fun location hmentions => ?_) hstores
    fun next hnext hcovers hnextStores =>
      expr.code_evaluates hnext hcovers hnextStores
  have hlocation := mentions_operandCode_lt hnames hmentions
  omega

end Frames

open Generator Machine

/-- Lowering the expression at a node, or making it a right operand, appends a
block without jumps.  With any accumulator and in any memory that is large
enough, the machine gets through the block with the value of the expression in
the accumulator, or with the accumulator as it was and the value in the operand;
without a value it comes to a division by zero inside the block.  The cells
below the free scratch cells stay. -/
theorem expression_code_keeps_frame (tree : Tree) (id : NodeId)
    (before after : Generator) (occurrences : List (String × Nat))
    (htable : before.symbols = SymbolTable.empty.resolveAll occurrences) :
    (lowerExpr tree id before = .ok () after →
      ∃ expr block, tree.expr id = .ok expr ∧ before.Appends after block ∧
        ∀ (program : Program) (state : Machine.State),
          program.CodeAt state.counter block →
            before.symbols.size + after.peakDepth ≤ state.memory.size →
              Evaluates program
                (before.symbols.size + before.scratchDepth) state
                (state.counter + block.length)
                (expr.value? (before.symbols.valuesIn state.memory))) ∧
    ∀ operand, operandAt tree (lowerExpr tree id) id before =
      .ok operand after →
      ∃ expr block, tree.expr id = .ok expr ∧ before.Appends after block ∧
        ∀ (program : Program) (state : Machine.State),
          program.CodeAt state.counter block →
            before.symbols.size + after.peakDepth ≤ state.memory.size →
              Provides program (before.symbols.size + before.scratchDepth) state
                (state.counter + block.length) operand
                (expr.value? (before.symbols.valuesIn state.memory)) := by
  have hlawful : before.symbols.Lawful := by
    rw [htable]
    exact SymbolTable.resolveAll_lawful occurrences
  have hlowers : LowersExpr tree (tree.size + 1) id (lowerExpr tree id) :=
    lowerExprWithin_lowers tree (tree.size + 1) id
  constructor
  · intro hrun
    obtain ⟨hnone, hemits⟩ := (hlowers before).of_ok hrun
    have hexpr := Tree.exprAt_spec hnone
    have hfaults := (Tree.faultsWithin_of_expr hexpr).symm.trans hnone
    obtain ⟨block, happends, heval⟩ := Expr.code_frame hlawful hfaults hemits
    exact ⟨_, block, hexpr, happends, heval⟩
  · intro operand hrun
    obtain ⟨hnone, rfl, hemits⟩ := (operandAt_meets hlowers before).of_ok hrun
    have hexpr := Tree.exprAt_spec hnone
    have hfaults := (Tree.faultsWithin_of_expr hexpr).symm.trans hnone
    obtain ⟨block, happends, hprovides⟩ :=
      Expr.operandCode_frame hlawful hfaults hemits
    exact ⟨_, block, hexpr, happends, hprovides⟩

/-- The difference `x - 6 / (x - 2)`. -/
def nestedDivision : Tree where
  nodes := #[⟨.var "x", 1, none, .integer⟩, ⟨.const 6, 1, none, .integer⟩,
    ⟨.const 2, 1, none, .integer⟩, ⟨.op .minus 0 2, 1, none, .integer⟩,
    ⟨.op .over 1 3, 1, none, .integer⟩, ⟨.op .minus 0 4, 1, none, .integer⟩]
  root := none

/-- A generator that has one scratch cell in use. -/
def oneCellInUse : Generator where
  symbols := SymbolTable.empty.resolveAll [("x", 1)]
  code := #[.write]
  pending := []
  scratchDepth := 1
  peakDepth := 1
  history := #[]

theorem oneCellInUse_location :
    oneCellInUse.symbols.location? "x" = some 0 := by
  rw [oneCellInUse, SymbolTable.resolveAll_singleton,
    SymbolTable.location?_insert, if_pos rfl]
  rfl

theorem oneCellInUse_size : oneCellInUse.symbols.size = 1 := by
  rw [oneCellInUse, SymbolTable.resolveAll_singleton]
  rfl

theorem nestedDivision_faults {id : NodeId} (hid : id = 4 ∨ id = 5) :
    nestedDivision.faultsWithin oneCellInUse.symbols 7 .expression id = [] := by
  obtain ⟨expr, hexpr, hanalyzed⟩ :
      ∃ expr, nestedDivision.exprWithin 7 id = .ok expr ∧
        Analyzed oneCellInUse.symbols expr.notes expr.names := by
    rcases hid with rfl | rfl <;>
      exact ⟨_, rfl, by simp [Analyzed, Expr.notes, Expr.names, Node.mark,
        nestedDivision, oneCellInUse_location]⟩
  rw [Tree.faultsWithin_of_expr hexpr, Expr.faults_eq_nil_iff]
  exact hanalyzed

/-- The machine behind the first instruction, with a value for the variable. -/
def behindFirst (value : Int32) : Machine.State :=
  ⟨1, 7, #[value, 9, 0, 0, 0], [], []⟩

/-- The difference is 3 where `x` is 5, and divides by zero where `x` is 2.  As
a right operand, the quotient in it comes to stand in cell 3. -/
theorem nested_division_keeps_frame :
    ∃ after loaded block spilled,
      lowerExpr nestedDivision 5 oneCellInUse = .ok () after ∧
      oneCellInUse.Appends after block ∧
      Evaluates ⟨after.code, 5⟩ 2 (behindFirst 5) (1 + block.length) (some 3) ∧
      Evaluates ⟨after.code, 5⟩ 2 (behindFirst 2) (1 + block.length) none ∧
      operandAt nestedDivision (lowerExpr nestedDivision 4) 4 oneCellInUse =
        .ok (.memory 3) loaded ∧
      oneCellInUse.Appends loaded spilled ∧
      Provides ⟨loaded.code, 5⟩ 2 (behindFirst 5) (1 + spilled.length)
        (.memory 3) (some 2) := by
  have hlower := lowerExprWithin_lowers nestedDivision 7 5 oneCellInUse
  have hoperand :=
    operandAt_meets (lowerExprWithin_lowers nestedDivision 7 4) oneCellInUse
  unfold Lowers at hlower
  rw [nestedDivision_faults (.inr rfl)] at hlower
  rw [nestedDivision_faults (.inl rfl)] at hoperand
  obtain ⟨_, after, hrun, hemits⟩ := hlower
  obtain ⟨_, loaded, hload, rfl, hloaded⟩ := hoperand
  have hframe := expression_code_keeps_frame nestedDivision
  obtain ⟨_, block, hexpr, happends, heval⟩ :=
    (hframe 5 oneCellInUse after [("x", 1)] rfl).1 hrun
  obtain ⟨_, spilled, hsame, hspilled, hprovides⟩ :=
    (hframe 4 oneCellInUse loaded [("x", 1)] rfl).2 _ hload
  cases hexpr
  cases hsame
  have hcode : Program.CodeAt ⟨after.code, 5⟩ 1 block :=
    ⟨[.write], [], by simp [happends.code, oneCellInUse], rfl⟩
  have hspilledCode : Program.CodeAt ⟨loaded.code, 5⟩ 1 spilled :=
    ⟨[.write], [], by simp [hspilled.code, oneCellInUse], rfl⟩
  have hpeak : after.peakDepth = 4 := hemits.peakDepth
  have hloadedPeak : loaded.peakDepth = 4 := hloaded.peakDepth
  have hfive := heval ⟨after.code, 5⟩ (behindFirst 5) hcode
    (by simp [oneCellInUse_size, hpeak, behindFirst])
  have htwo := heval ⟨after.code, 5⟩ (behindFirst 2) hcode
    (by simp [oneCellInUse_size, hpeak, behindFirst])
  have hquotientFive := hprovides ⟨loaded.code, 5⟩ (behindFirst 5) hspilledCode
    (by simp [oneCellInUse_size, hloadedPeak, behindFirst])
  have hvariable : ∀ value,
      oneCellInUse.symbols.valuesIn (behindFirst value).memory "x" = value := by
    intro value
    rw [SymbolTable.valuesIn,
      SymbolTable.locate_of_location? oneCellInUse_location]
    rfl
  have hplace : (nestedDivision.exprAt 7 4).operand oneCellInUse.symbols.locate
      oneCellInUse.nextCell = .memory 3 := by
    rw [nextCell, oneCellInUse_size]
    rfl
  rw [hplace] at hload hquotientFive
  simp only [oneCellInUse_size, Expr.value?, hvariable]
    at hfive htwo hquotientFive
  exact ⟨after, loaded, block, spilled, hrun, happends, hfive, htwo,
    hload, hspilled, hquotientFive⟩

end TinyCompiler
