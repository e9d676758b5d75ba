import TinyCompiler.Proofs.CodeLocations
import TinyCompiler.Proofs.CompiledPrograms

/-!
# The data area of generated programs

The memory of a generated program has a cell for each variable and as many cells
behind them as the most demanding of its expressions needs.  The code mentions
all of these cells and no others.
-/

namespace TinyCompiler

/-! ## The largest need -/

/-- An expression and its parts. -/
def Expr.exprs : Expr α → List (Expr α)
  | .const note value => [.const note value]
  | .var note name => [.var note name]
  | .op note operator left right =>
      left.exprs ++ right.exprs ++ [.op note operator left right]

mutual

def Stmt.exprs : Stmt α → List (Expr α)
  | .read _ _ => []
  | .assign _ _ value => value.exprs
  | .write _ value => value.exprs
  | .ifThen _ test thenPart => test.exprs ++ thenPart.exprs
  | .ifElse _ test thenPart elsePart =>
      test.exprs ++ thenPart.exprs ++ elsePart.exprs
  | .repeatUntil _ body test => body.exprs ++ test.exprs

def Block.exprs : Block α → List (Expr α)
  | .nil => []
  | .cons first rest => first.exprs ++ rest.exprs

end

/-- The largest need of some expressions, 0 if there are none. -/
def Expr.largestNeed (exprs : List (Expr α)) : Nat :=
  (exprs.map Expr.need).foldr max 0

@[simp] theorem Expr.largestNeed_append (exprs others : List (Expr α)) :
    Expr.largestNeed (exprs ++ others) =
      max (Expr.largestNeed exprs) (Expr.largestNeed others) := by
  induction exprs with
  | nil => simp [largestNeed]
  | cons expr exprs ih =>
      have hfirst : ∀ rest,
          largestNeed (expr :: rest) = max expr.need (largestNeed rest) :=
        fun _ => rfl
      rw [List.cons_append, hfirst, hfirst, ih, Nat.max_assoc]

/-- No part of an expression needs more cells than the expression. -/
theorem Expr.largestNeed_exprs (expr : Expr α) :
    Expr.largestNeed expr.exprs = expr.need := by
  induction expr with
  | const note value => rfl
  | var note name => rfl
  | op note operator left right ihLeft ihRight =>
      have hown : largestNeed [op note operator left right] =
          (op note operator left right).need := Nat.max_zero _
      rw [exprs, largestNeed_append, largestNeed_append, ihLeft, ihRight, hown]
      cases right with
      | const note value => simp [need, isLeaf]
      | var note name => simp [need, isLeaf]
      | op note operator first second =>
          rw [need_op_op]
          omega

mutual

theorem Stmt.peak_zero :
    ∀ stmt : Stmt α, stmt.peak 0 = Expr.largestNeed stmt.exprs
  | .read note name => rfl
  | .assign note name value =>
      value.peak_zero.trans value.largestNeed_exprs.symm
  | .write note value => value.peak_zero.trans value.largestNeed_exprs.symm
  | .ifThen note test thenPart => by
      simp only [Stmt.peak, Stmt.exprs, Expr.largestNeed_append,
        test.largestNeed_exprs, test.peak_zero, Block.peak_zero thenPart]
  | .ifElse note test thenPart elsePart => by
      simp only [Stmt.peak, Stmt.exprs, Expr.largestNeed_append,
        test.largestNeed_exprs, test.peak_zero, Block.peak_zero thenPart,
        Block.peak_zero elsePart, Nat.max_assoc]
  | .repeatUntil note body test => by
      simp only [Stmt.peak, Stmt.exprs, Expr.largestNeed_append,
        test.largestNeed_exprs, test.peak_zero, Block.peak_zero body]

theorem Block.peak_zero :
    ∀ block : Block α, block.peak 0 = Expr.largestNeed block.exprs
  | .nil => rfl
  | .cons first rest => by
      simp only [Block.peak, Block.exprs, Expr.largestNeed_append,
        Stmt.peak_zero first, Block.peak_zero rest]

end

/-! ## The cells of the variables -/

namespace Block

variable (program : Block Mark)

theorem size_symbols :
    program.symbols.size = program.names.eraseDups.length := by
  have hnames := (SymbolTable.resolveAll_records
    (program.findings.filterMap Finding.occurrence?)).names
  rw [← program.names_findings, Finding.names, ← hnames, List.length_map]
  rfl

/-- Every cell below the scratch cells is that of a variable of the program. -/
theorem mem_map_locate_iff {location : Nat} :
    location ∈ program.names.map program.symbols.locate ↔
      location < program.symbols.size := by
  rw [List.mem_map]
  constructor
  · rintro ⟨name, hname, rfl⟩
    rw [← program.location?_symbols_isSome, Option.isSome_iff_exists] at hname
    obtain ⟨location, hlocation⟩ := hname
    rw [SymbolTable.locate_of_location? hlocation]
    exact program.symbols_lawful.lt_size hlocation
  · intro hlt
    -- The table finds the name of the entry at this location, and at no other.
    obtain ⟨symbol, hsymbol⟩ : ∃ symbol,
        program.symbols.entries[location]? = some symbol :=
      ⟨_, Array.getElem?_eq_getElem hlt⟩
    have hlocation :=
      (program.symbols_lawful symbol.name location).mpr ⟨symbol, hsymbol, rfl⟩
    have hname :=
      (program.location?_symbols_isSome symbol.name).mp (by rw [hlocation]; rfl)
    exact ⟨symbol.name, hname, SymbolTable.locate_of_location? hlocation⟩

theorem mentions_iff_lt_memorySize {location : Nat} :
    Mentions (Program.ofBlock program.symbols program).code.toList location ↔
      location < (Program.ofBlock program.symbols program).memorySize := by
  rw [Program.ofBlock_occupies, mem_map_locate_iff]
  have hsize : (Program.ofBlock program.symbols program).memorySize =
      program.symbols.size + program.peak 0 := rfl
  omega

end Block

/-- The code of a parsed program mentions exactly the cells of its memory.
These are one for each variable and as many as the largest need among its
expressions. -/
theorem data_area_exact (tokens : List Token) (file : String) (tree : Tree)
    (hparse : Parser.parse tokens file = .ok tree) (sourceFile : String) :
    ∃ block analysis program, tree.program = .ok block ∧
      analyze tree sourceFile = .ok analysis ∧
      generate analysis.tree analysis.symbols = .ok program ∧
      (∀ location, Mentions program.code.toList location ↔
        location < program.memorySize) ∧
      analysis.symbols.size = block.names.eraseDups.length ∧
      program.memorySize =
        analysis.symbols.size + Expr.largestNeed block.exprs := by
  obtain ⟨block, analysis, hblock, hanalyze, hsymbols, hgenerate⟩ :=
    generate_after_analyze (Parser.parse_built hparse)
      (Parser.parse_acyclic hparse) sourceFile
  refine ⟨block, analysis, _, hblock, hanalyze, hgenerate, ?_, ?_, ?_⟩
  · exact fun location => block.mentions_iff_lt_memorySize
  · rw [hsymbols, block.size_symbols]
  · rw [hsymbols, ← block.peak_zero]
    rfl

/-- The difference a - (b - (a - 1)). -/
def nestedDifferences : List Token :=
  [⟨.writeWord, "write", 1⟩, ⟨.identifier, "a", 1⟩, ⟨.dash, "-", 1⟩,
    ⟨.openParen, "(", 1⟩, ⟨.identifier, "b", 1⟩, ⟨.dash, "-", 1⟩,
      ⟨.openParen, "(", 1⟩,
    ⟨.identifier, "a", 1⟩, ⟨.dash, "-", 1⟩, ⟨.number, "1", 1⟩,
      ⟨.closeParen, ")", 1⟩,
    ⟨.closeParen, ")", 1⟩]

def nestedDifferencesTree : Tree where
  nodes := #[.fresh 1 (.var "a"), .fresh 1 (.var "b"), .fresh 1 (.var "a"),
    .fresh 1 (.const 1), .fresh 1 (.op .minus 2 3), .fresh 1 (.op .minus 1 4),
    .fresh 1 (.op .minus 0 5), .fresh 1 (.write 6)]
  root := some 7

/-- Three values are kept at once. -/
theorem nested_differences_exact :
    ∃ tree analysis program,
      Parser.parse nestedDifferences "sample" = .ok tree ∧
      analyze tree "sample" = .ok analysis ∧
      generate analysis.tree analysis.symbols = .ok program ∧
      program.memorySize = 5 ∧ Mentions program.code.toList 4 ∧
      ¬ Mentions program.code.toList 5 := by
  have hparse : Parser.parse nestedDifferences "sample" =
      .ok nestedDifferencesTree := by
    decide +kernel
  obtain ⟨block, analysis, program, hblock, hanalyze, hgenerate, hmentions,
      hsize, hmemory⟩ :=
    data_area_exact _ _ _ hparse "sample"
  cases hblock
  have hfive : program.memorySize = 5 := by
    rw [hmemory, hsize]
    decide +kernel
  refine ⟨_, analysis, program, hparse, hanalyze, hgenerate, hfive, ?_, ?_⟩
  · rw [hmentions, hfive]
    decide
  · rw [hmentions, hfive]
    decide

end TinyCompiler
