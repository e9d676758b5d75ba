import TinyCompiler.Compilation
import TinyCompiler.Proofs.CompilerCorrectness
import TinyCompiler.Proofs.AnalyzedGeneration
import TinyCompiler.Proofs.ParsedTrees

/-!
# From trees to programs

Every tree without cycles has a program of the machine: the analysis notes what
the generation asks for, with or without type errors.  The parser gives only
such trees, so that a text is compiled or wrong, and the machine does on the
program what the interpreter does on the tree.
-/

namespace TinyCompiler

section Trees

variable {tree : Tree}

/-- The analysis of a tree without cycles and the generation behind it succeed,
and the code is the layout of the program in the tree. -/
theorem generate_after_analyze (hbuilt : tree.Built) (hacyclic : tree.Acyclic)
    (file : String) :
    ∃ block analysis,
      tree.program = .ok block ∧ analyze tree file = .ok analysis ∧
      analysis.symbols = block.symbols ∧
      generate analysis.tree analysis.symbols =
        .ok (.ofBlock block.symbols block) := by
  obtain ⟨block, hblock⟩ := hbuilt.wellFormed.program_exists hacyclic
  exact ⟨block, _, hblock, analyze_eq hblock file, rfl,
    generate_typed_eq hblock⟩

theorem implements_of_analysis (hbuilt : tree.Built) (hacyclic : tree.Acyclic)
    (file : String) :
    ∃ block analysis program,
      tree.program = .ok block ∧ analyze tree file = .ok analysis ∧
      generate analysis.tree analysis.symbols = .ok program ∧
      program.Implements analysis.symbols block := by
  obtain ⟨block, analysis, hblock, hanalyze, hsymbols, hgenerate⟩ :=
    generate_after_analyze hbuilt hacyclic file
  refine ⟨block, analysis, _, hblock, hanalyze, hgenerate, ?_⟩
  rw [hsymbols]
  exact Program.ofBlock_implements block.symbols_lawful fun name hname =>
    (block.location?_symbols_isSome name).mpr hname

end Trees

/-- The analysis and the generation of a parsed tree succeed, and the machine
does on the program what the interpreter does on the tree. -/
theorem parsed_tree_implemented (tokens : List Token) (file : String)
    (tree : Tree) (hparse : Parser.parse tokens file = .ok tree)
    (sourceFile : String) :
    ∃ block analysis program, tree.program = .ok block ∧
      analyze tree sourceFile = .ok analysis ∧
      generate analysis.tree analysis.symbols = .ok program ∧
      program.Implements analysis.symbols block :=
  implements_of_analysis (Parser.parse_built hparse)
    (Parser.parse_acyclic hparse) sourceFile

/-- A program that divides seven by what it reads. -/
def divideSeven : List Token :=
  [⟨.readWord, "read", 1⟩, ⟨.identifier, "x", 1⟩, ⟨.semicolon, ";", 1⟩,
    ⟨.writeWord, "write", 2⟩, ⟨.number, "7", 2⟩, ⟨.slash, "/", 2⟩,
      ⟨.identifier, "x", 2⟩]

def divideSevenTree : Tree where
  nodes := #[⟨.read "x", 1, some 4, .void⟩, .fresh 2 (.const 7),
    .fresh 2 (.var "x"), .fresh 2 (.op .over 1 2), .fresh 2 (.write 3)]
  root := some 0

theorem parsed_division_implemented :
    ∃ tree analysis program, Parser.parse divideSeven "sample" = .ok tree ∧
      analyze tree "sample" = .ok analysis ∧
      generate analysis.tree analysis.symbols = .ok program ∧
      (∃ enough, ∀ limit, enough ≤ limit →
        ((Machine.start program limit).run [-2]).1 = .ok [-3]) ∧
      ∃ enough address, ∀ limit, enough ≤ limit →
        ((Machine.start program limit).run [0]).1 =
          .error (.divisionByZero address) := by
  have hparse : Parser.parse divideSeven "sample" = .ok divideSevenTree := rfl
  obtain ⟨block, analysis, program, hblock, hanalyze, hgenerate, himplements⟩ :=
    parsed_tree_implemented _ _ _ hparse "sample"
  obtain rfl : Block.cons (.read ⟨0, 1, .void⟩ "x") (.cons (.write ⟨4, 2, .void⟩
      (.op ⟨3, 2, .void⟩ .over (.const ⟨1, 2, .void⟩ 7)
        (.var ⟨2, 2, .void⟩ "x"))) .nil) =
        block := Except.ok.inj hblock
  refine ⟨_, analysis, program, hparse, hanalyze, hgenerate, ?_, ?_⟩
  · obtain ⟨enough, hfinishes⟩ := himplements.finishes [-2] _ ⟨0, rfl⟩
    exact ⟨enough,
      fun limit hlimit => (hfinishes (.start program limit) rfl hlimit).1⟩
  · obtain ⟨enough, address, hfaults⟩ :=
      himplements.faults [0] .divisionByZero _ ⟨0, rfl⟩
    exact ⟨enough, address,
      fun limit hlimit => (hfaults (.start program limit) rfl hlimit).1⟩

/-! ## Texts -/

theorem Analysis.symbols_eq_of_accepted {analysis : Analysis}
    {symbols : SymbolTable} (haccepted : analysis.accepted = .ok symbols) :
    symbols = analysis.symbols := by
  unfold accepted at haccepted
  cases hdiagnostics : analysis.diagnostics with
  | nil =>
      rw [hdiagnostics] at haccepted
      exact (Except.ok.inj haccepted).symm
  | cons diagnostic rest =>
      rw [hdiagnostics] at haccepted
      cases haccepted

/-- Parsing stops with diagnostics only. -/
theorem Parser.parse_eq_error {tokens : List Token} {file : String}
    {stop : Stop} (hparse : parse tokens file = .error stop) :
    ∃ diagnostic, stop = .rejected diagnostic := by
  rcases parse_cases tokens file
    with ⟨diagnostic, hrejected⟩ | ⟨sequence, -, -, hsequence⟩
  · rw [hparse] at hrejected
    exact ⟨diagnostic, Except.error.inj hrejected⟩
  · rw [hparse] at hsequence
    cases hsequence

theorem compile_ne_generation (source : String) (file : Option String)
    (error : GenerationError) :
    compile source file ≠ .error (.generation error) := by
  intro hcompile
  unfold compile at hcompile
  rcases except_bind_eq_error.mp hcompile with hscan | ⟨tokens, -, hparsed⟩
  · obtain ⟨diagnostic, -, hcause⟩ := except_mapError_eq_error.mp hscan
    cases hcause
  rcases except_bind_eq_error.mp hparsed with hparse | ⟨tree, hparse, hanalyzed⟩
  · obtain ⟨stop, hstop, hcause⟩ := except_mapError_eq_error.mp hparse
    obtain ⟨diagnostic, rfl⟩ := Parser.parse_eq_error hstop
    cases hcause
  rw [except_mapError_eq_ok] at hparse
  obtain ⟨block, known, -, hknown, -, hgenerate⟩ := generate_after_analyze
    (Parser.parse_built hparse) (Parser.parse_acyclic hparse)
    (file.getD inputFile)
  rcases except_bind_eq_error.mp hanalyzed
    with hanalyze | ⟨analysis, hanalyze, haccepted⟩
  · obtain ⟨fault, hfault, -⟩ := except_mapError_eq_error.mp hanalyze
    rw [hknown] at hfault
    cases hfault
  rw [except_mapError_eq_ok, hknown] at hanalyze
  obtain rfl := Except.ok.inj hanalyze
  rcases except_bind_eq_error.mp haccepted
    with htyped | ⟨symbols, htyped, hgenerated⟩
  · obtain ⟨diagnostics, -, hcause⟩ := except_mapError_eq_error.mp htyped
    cases hcause
  obtain rfl :=
    Analysis.symbols_eq_of_accepted (except_mapError_eq_ok.mp htyped)
  rcases except_bind_eq_error.mp hgenerated with hfailed | ⟨program, -, hdone⟩
  · obtain ⟨cause, hcause, -⟩ := except_mapError_eq_error.mp hfailed
    rw [hgenerate] at hcause
    cases hcause
  · cases hdone

/-- What a compilation has been through: its program is the layout of the
program that was parsed, for the variables of that. -/
theorem compile_eq_ok {source : String} {file : Option String}
    {compilation : Compilation}
    (hcompile : compile source file = .ok compilation) :
    ∃ tokens tree block,
      Scanner.tokenize source (some (file.getD inputFile)) = .ok tokens ∧
      Parser.parse tokens (file.getD inputFile) = .ok tree ∧
        tree.program = .ok block ∧
      compilation.symbols = block.symbols ∧
      compilation.program = .ofBlock block.symbols block := by
  unfold compile at hcompile
  obtain ⟨tokens, hscan, hparsed⟩ := except_bind_eq_ok.mp hcompile
  obtain ⟨tree, hparse, hanalyzed⟩ := except_bind_eq_ok.mp hparsed
  rw [except_mapError_eq_ok] at hscan hparse
  obtain ⟨block, known, hblock, hknown, hknownSymbols, hgenerate⟩ :=
    generate_after_analyze
    (Parser.parse_built hparse) (Parser.parse_acyclic hparse)
    (file.getD inputFile)
  obtain ⟨analysis, hanalyze, haccepted⟩ := except_bind_eq_ok.mp hanalyzed
  rw [except_mapError_eq_ok, hknown] at hanalyze
  obtain rfl := Except.ok.inj hanalyze
  obtain ⟨symbols, htyped, hgenerated⟩ := except_bind_eq_ok.mp haccepted
  obtain rfl :=
    Analysis.symbols_eq_of_accepted (except_mapError_eq_ok.mp htyped)
  obtain ⟨program, hprogram, hdone⟩ := except_bind_eq_ok.mp hgenerated
  rw [except_mapError_eq_ok, hgenerate] at hprogram
  obtain rfl := Except.ok.inj hprogram
  obtain rfl := Except.ok.inj hdone
  exact ⟨tokens, tree, block, hscan, hparse, hblock, hknownSymbols, rfl⟩

theorem Analysis.diagnostics_eq_of_not_accepted {analysis : Analysis}
    {diagnostics : List Diagnostic}
    (haccepted : analysis.accepted = .error diagnostics) :
    diagnostics = analysis.diagnostics := by
  unfold accepted at haccepted
  cases hdiagnostics : analysis.diagnostics with
  | nil =>
      rw [hdiagnostics] at haccepted
      cases haccepted
  | cons diagnostic rest =>
      rw [hdiagnostics] at haccepted
      exact (Except.error.inj haccepted).symm

/-- Where a compilation fails: at a place without a piece, at a token, or in the
analysis. -/
theorem compile_eq_error {source : String} {file : Option String}
    {error : CompileError} (hcompile : compile source file = .error error) :
    (∃ diagnostic, error = .rejected diagnostic ∧
      Scanner.tokenize source (some (file.getD inputFile)) =
        .error diagnostic) ∨
    ∃ tokens, Scanner.tokenize source
      (some (file.getD inputFile)) = .ok tokens ∧
      ((∃ diagnostic, error = .rejected diagnostic ∧
        Parser.parse tokens (file.getD inputFile) =
          .error (.rejected diagnostic)) ∨
      ∃ tree analysis, Parser.parse tokens (file.getD inputFile) = .ok tree ∧
        analyze tree (file.getD inputFile) = .ok analysis ∧
        error = .illTyped analysis.diagnostics) := by
  have hgeneration := compile_ne_generation source file
  rw [hcompile] at hgeneration
  unfold compile at hcompile
  rcases except_bind_eq_error.mp hcompile with hscan | ⟨tokens, hscan, hparsed⟩
  · obtain ⟨diagnostic, hdiagnostic, rfl⟩ := except_mapError_eq_error.mp hscan
    exact .inl ⟨diagnostic, rfl, hdiagnostic⟩
  rw [except_mapError_eq_ok] at hscan
  refine .inr ⟨tokens, hscan, ?_⟩
  rcases except_bind_eq_error.mp hparsed with hparse | ⟨tree, hparse, hanalyzed⟩
  · obtain ⟨stop, hstop, rfl⟩ := except_mapError_eq_error.mp hparse
    obtain ⟨diagnostic, rfl⟩ := Parser.parse_eq_error hstop
    exact .inl ⟨diagnostic, rfl, hstop⟩
  rw [except_mapError_eq_ok] at hparse
  rcases except_bind_eq_error.mp hanalyzed
    with hanalyze | ⟨analysis, hanalyze, haccepted⟩
  · obtain ⟨fault, -, rfl⟩ := except_mapError_eq_error.mp hanalyze
    exact absurd rfl (hgeneration _)
  rw [except_mapError_eq_ok] at hanalyze
  rcases except_bind_eq_error.mp haccepted
    with htyped | ⟨symbols, -, hgenerated⟩
  · obtain ⟨diagnostics, hmistakes, rfl⟩ := except_mapError_eq_error.mp htyped
    obtain rfl := Analysis.diagnostics_eq_of_not_accepted hmistakes
    exact .inr ⟨tree, analysis, hparse, hanalyze, rfl⟩
  rcases except_bind_eq_error.mp hgenerated with hfailed | ⟨program, -, hdone⟩
  · obtain ⟨cause, -, rfl⟩ := except_mapError_eq_error.mp hfailed
    exact absurd rfl (hgeneration _)
  · cases hdone

/-- Code is generated behind every analysis, of the trees that the parser gives
and of all others without cycles, whatever types they note and with or without
type errors.  Compiling a text never fails in the generation. -/
theorem analyzed_tree_generates :
    (∀ (tree : Tree) (file : String), tree.Built → tree.Acyclic →
      ∃ analysis program, analyze tree file = .ok analysis ∧
        generate analysis.tree analysis.symbols = .ok program) ∧
    (∀ (tokens : List Token) (file : String) (tree : Tree),
      Parser.parse tokens file = .ok tree → tree.Built ∧ tree.Acyclic) ∧
    ∀ (source : String) (file : Option String) (error : GenerationError),
      compile source file ≠ .error (.generation error) := by
  refine ⟨?_, ?_, compile_ne_generation⟩
  · intro tree file hbuilt hacyclic
    obtain ⟨block, analysis, -, hanalyze, -, hgenerate⟩ :=
      generate_after_analyze hbuilt hacyclic file
    exact ⟨analysis, _, hanalyze, hgenerate⟩
  · intro tokens file tree hparse
    exact ⟨Parser.parse_built hparse, Parser.parse_acyclic hparse⟩

/-- A program that writes a comparison, which is ill-typed. -/
def writeComparison : List Token :=
  [⟨.writeWord, "write", 1⟩, ⟨.number, "1", 1⟩, ⟨.less, "<", 1⟩,
    ⟨.number, "2", 1⟩]

def writeComparisonTree : Tree where
  nodes := #[.fresh 1 (.const 1), .fresh 1 (.const 2), .fresh 1 (.op .less 0 1),
    .fresh 1 (.write 2)]
  root := some 3

theorem analyzed_comparison_generates :
    ∃ tree analysis program, Parser.parse writeComparison "sample" = .ok tree ∧
      analyze tree "sample" = .ok analysis ∧
      analysis.diagnostics = [⟨.typing .writtenValue, 1, "sample"⟩] ∧
      generate analysis.tree analysis.symbols = .ok program := by
  obtain ⟨htrees, hparsed, -⟩ := analyzed_tree_generates
  have hparse : Parser.parse writeComparison "sample" =
    .ok writeComparisonTree := rfl
  obtain ⟨hbuilt, hacyclic⟩ := hparsed _ _ _ hparse
  obtain ⟨analysis, program, hanalyze, hgenerate⟩ :=
    htrees _ "sample" hbuilt hacyclic
  refine ⟨_, analysis, program, hparse, hanalyze, ?_, hgenerate⟩
  cases hanalyze
  rfl

end TinyCompiler
