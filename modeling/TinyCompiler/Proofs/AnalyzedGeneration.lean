import TinyCompiler.Proofs.AnnotatedTree
import TinyCompiler.Proofs.LoweringLayout
import TinyCompiler.Proofs.SymbolTableLaws

/-!
# Generation after the analysis

A program has no fault if each of its expressions has a type and each of its
names a location.  The analysis sees to both, so the code of an analyzed tree is
always generated, and it is the layout of the program of the tree.
-/

namespace TinyCompiler

theorem Mark.faults_eq_nil_iff {mark : Mark} :
    mark.faults = [] ↔ mark.type ≠ .void := by
  unfold faults
  by_cases hvoid : mark.type = .void <;> simp [hvoid]

theorem SymbolTable.faults_eq_nil_iff {symbols : SymbolTable} {name : String}
    {line : Nat} :
    symbols.faults name line = [] ↔ (symbols.location? name).isSome := by
  unfold faults
  by_cases hsome : (symbols.location? name).isSome <;> simp [hsome]

section Faults

variable (symbols : SymbolTable)

/-- The expressions with these marks have types and the names have locations. -/
def Analyzed (marks : List Mark) (names : List String) : Prop :=
  (∀ mark ∈ marks, mark.type ≠ .void) ∧ ∀ name ∈ names,
    (symbols.location? name).isSome

theorem analyzed_append {marks otherMarks : List Mark}
    {names otherNames : List String} :
    Analyzed symbols (marks ++ otherMarks) (names ++ otherNames) ↔
      Analyzed symbols marks names ∧
        Analyzed symbols otherMarks otherNames := by
  unfold Analyzed
  simp only [List.mem_append, or_imp, forall_and]
  exact and_and_and_comm

theorem Expr.faults_eq_nil_iff (expr : Expr Mark) :
    expr.faults symbols = [] ↔ Analyzed symbols expr.notes expr.names := by
  induction expr with
  | const mark value =>
      simp [Expr.faults, Expr.notes, Expr.names, Analyzed,
        Mark.faults_eq_nil_iff]
  | var mark name =>
      simp [Expr.faults, Expr.notes, Expr.names, Analyzed,
        Mark.faults_eq_nil_iff, SymbolTable.faults_eq_nil_iff]
  | op mark operator left right ihLeft ihRight =>
      have hmark : mark.faults = [] ↔ Analyzed symbols [mark] [] := by
        simp [Analyzed, Mark.faults_eq_nil_iff]
      have hnames : (Expr.op mark operator left right).names =
          (left.names ++ right.names) ++ [] := by simp [Expr.names]
      rw [hnames]
      simp only [Expr.faults, Expr.notes, List.append_eq_nil_iff,
        analyzed_append, ihLeft, ihRight, hmark]
      exact and_comm

mutual

theorem Stmt.faults_eq_nil_iff : ∀ stmt : Stmt Mark,
    stmt.faults symbols = [] ↔ Analyzed symbols stmt.exprNotes stmt.names
  | .read mark name => by
      simp [Stmt.faults, Stmt.exprNotes, Stmt.names, Analyzed,
        SymbolTable.faults_eq_nil_iff]
  | .assign mark name value => by
      have hname : symbols.faults name mark.line = [] ↔
          Analyzed symbols [] [name] := by
        simp [Analyzed, SymbolTable.faults_eq_nil_iff]
      have hnames : (Stmt.assign mark name value).names =
        [name] ++ value.names := rfl
      have hnotes : (Stmt.assign mark name value).exprNotes =
        [] ++ value.notes := rfl
      rw [hnames, hnotes, analyzed_append, Stmt.faults, List.append_eq_nil_iff,
        value.faults_eq_nil_iff, hname]
      exact and_comm
  | .write mark value => value.faults_eq_nil_iff symbols
  | .ifThen mark test thenPart => by
      simp only [Stmt.faults, Stmt.exprNotes, Stmt.names,
        List.append_eq_nil_iff, analyzed_append, test.faults_eq_nil_iff,
        Block.faults_eq_nil_iff thenPart]
  | .ifElse mark test thenPart elsePart => by
      simp only [Stmt.faults, Stmt.exprNotes, Stmt.names,
        List.append_eq_nil_iff, analyzed_append, test.faults_eq_nil_iff,
        Block.faults_eq_nil_iff thenPart,
        Block.faults_eq_nil_iff elsePart, and_assoc]
  | .repeatUntil mark body test => by
      simp only [Stmt.faults, Stmt.exprNotes, Stmt.names,
        List.append_eq_nil_iff, analyzed_append, test.faults_eq_nil_iff,
        Block.faults_eq_nil_iff body]

theorem Block.faults_eq_nil_iff : ∀ block : Block Mark,
    block.faults symbols = [] ↔ Analyzed symbols block.exprNotes block.names
  | .nil => by simp [Block.faults, Block.exprNotes, Block.names, Analyzed]
  | .cons first rest => by
      simp only [Block.faults, Block.exprNotes, Block.names,
        List.append_eq_nil_iff, analyzed_append, Stmt.faults_eq_nil_iff first,
        Block.faults_eq_nil_iff rest]

end

end Faults

/-! ## The names that the analysis finds -/

def Finding.names (findings : List Finding) : List String :=
  (findings.filterMap Finding.occurrence?).map Prod.fst

namespace Finding

@[simp] theorem names_append (findings others : List Finding) :
    names (findings ++ others) = names findings ++ names others := by
  simp [names]

@[simp] theorem names_require (holds : Bool) (error : TypeError) (line : Nat) :
    names (require holds error line) = [] := by
  cases holds <;> rfl

@[simp] theorem names_occurrence (name : String) (line : Nat)
    (findings : List Finding) :
    names (.occurrence name line :: findings) = name :: names findings := rfl

end Finding

theorem Expr.names_findings (expr : Expr Mark) :
    Finding.names expr.findings = expr.names := by
  induction expr with
  | const mark value => rfl
  | var mark name => rfl
  | op mark operator left right ihLeft ihRight =>
      simp [Expr.findings, Expr.names, ihLeft, ihRight]

mutual

theorem Stmt.names_findings :
    ∀ stmt : Stmt Mark, Finding.names stmt.findings = stmt.names
  | .read mark name => rfl
  | .assign mark name value =>
      by simp [Stmt.findings, Stmt.names, value.names_findings]
  | .write mark value =>
      by simp [Stmt.findings, Stmt.names, value.names_findings]
  | .ifThen mark test thenPart => by
      simp [Stmt.findings, Stmt.names, test.names_findings,
        Block.names_findings thenPart]
  | .ifElse mark test thenPart elsePart => by
      simp [Stmt.findings, Stmt.names, test.names_findings,
        Block.names_findings thenPart, Block.names_findings elsePart]
  | .repeatUntil mark body test => by
      simp [Stmt.findings, Stmt.names, test.names_findings,
        Block.names_findings body]

theorem Block.names_findings :
    ∀ block : Block Mark, Finding.names block.findings = block.names
  | .nil => rfl
  | .cons first rest => by
      simp [Block.findings, Block.names, Stmt.names_findings first,
        Block.names_findings rest]

end

/-! ## Layouts depend on neither notes nor names -/

section Renamed

variable (change : α → β) (rename : String → String)
  {locate otherLocate : String → Nat}

theorem Expr.code_renamed
    (hlocate : ∀ name, otherLocate (rename name) = locate name) (expr : Expr α)
    (scratch : Nat) :
    ((expr.mapNote change).mapName rename).code otherLocate scratch =
      expr.code locate scratch := by
  induction expr generalizing scratch with
  | const note value => rfl
  | var note name => simp [Expr.mapNote, Expr.mapName, Expr.code, hlocate]
  | op note operator left right ihLeft ihRight =>
      have hoperand : ((right.mapNote change).mapName rename).operand
          otherLocate scratch =
          right.operand locate scratch := by
        cases right <;> simp [Expr.mapNote, Expr.mapName, Expr.operand, hlocate]
      have hcode : ∀ inner,
          ((right.mapNote change).mapName rename).operandCode inner scratch =
          right.operandCode inner scratch := by intro inner; cases right <;> rfl
      simp only [Expr.mapNote, Expr.mapName, Expr.code, ihLeft, ihRight,
        hoperand, hcode]

theorem Expr.peak_renamed (expr : Expr α) (depth : Nat) :
    ((expr.mapNote change).mapName rename).peak depth = expr.peak depth := by
  induction expr generalizing depth with
  | const note value => rfl
  | var note name => rfl
  | op note operator left right ihLeft ihRight =>
      have hpeak : ∀ inner,
          ((right.mapNote change).mapName rename).operandPeak inner depth =
          right.operandPeak inner depth := by intro inner; cases right <;> rfl
      simp only [Expr.mapNote, Expr.mapName, Expr.peak, ihLeft, ihRight, hpeak]

mutual

theorem Stmt.code_renamed
    (hlocate : ∀ name, otherLocate (rename name) = locate name)
    (scratch : Nat) : ∀ (stmt : Stmt α) (base : Nat),
    ((stmt.mapNote change).mapName rename).code otherLocate scratch base =
      stmt.code locate scratch base
  | .read note name, base =>
      by simp [Stmt.mapNote, Stmt.mapName, Stmt.code, hlocate]
  | .assign note name value, base => by
      simp [Stmt.mapNote, Stmt.mapName, Stmt.code, hlocate,
        Expr.code_renamed change rename hlocate]
  | .write note value, base => by
      simp [Stmt.mapNote, Stmt.mapName, Stmt.code,
        Expr.code_renamed change rename hlocate]
  | .ifThen note test thenPart, base => by
      simp [Stmt.mapNote, Stmt.mapName, Stmt.code,
        Expr.code_renamed change rename hlocate,
        Block.code_renamed hlocate scratch thenPart]
  | .ifElse note test thenPart elsePart, base => by
      simp [Stmt.mapNote, Stmt.mapName, Stmt.code,
        Expr.code_renamed change rename hlocate,
        Block.code_renamed hlocate scratch thenPart,
        Block.code_renamed hlocate scratch elsePart]
  | .repeatUntil note body test, base => by
      simp [Stmt.mapNote, Stmt.mapName, Stmt.code,
        Expr.code_renamed change rename hlocate,
        Block.code_renamed hlocate scratch body]

theorem Block.code_renamed
    (hlocate : ∀ name, otherLocate (rename name) = locate name)
    (scratch : Nat) : ∀ (block : Block α) (base : Nat),
    ((block.mapNote change).mapName rename).code otherLocate scratch base =
      block.code locate scratch base
  | .nil, base => rfl
  | .cons first rest, base => by
      simp [Block.mapNote, Block.mapName, Block.code,
        Stmt.code_renamed hlocate scratch first,
        Block.code_renamed hlocate scratch rest]

end

mutual

theorem Stmt.peak_renamed : ∀ (stmt : Stmt α) (depth : Nat),
    ((stmt.mapNote change).mapName rename).peak depth = stmt.peak depth
  | .read note name, depth => rfl
  | .assign note name value, depth => by
      simp [Stmt.mapNote, Stmt.mapName, Stmt.peak, Expr.peak_renamed]
  | .write note value, depth => by
      simp [Stmt.mapNote, Stmt.mapName, Stmt.peak, Expr.peak_renamed]
  | .ifThen note test thenPart, depth => by
      simp [Stmt.mapNote, Stmt.mapName, Stmt.peak, Expr.peak_renamed,
        Block.peak_renamed thenPart]
  | .ifElse note test thenPart elsePart, depth => by
      simp [Stmt.mapNote, Stmt.mapName, Stmt.peak, Expr.peak_renamed,
        Block.peak_renamed thenPart, Block.peak_renamed elsePart]
  | .repeatUntil note body test, depth => by
      simp [Stmt.mapNote, Stmt.mapName, Stmt.peak, Expr.peak_renamed,
        Block.peak_renamed body]

theorem Block.peak_renamed : ∀ (block : Block α) (depth : Nat),
    ((block.mapNote change).mapName rename).peak depth = block.peak depth
  | .nil, depth => rfl
  | .cons first rest, depth => by
      simp [Block.mapNote, Block.mapName, Block.peak, Stmt.peak_renamed first,
        Block.peak_renamed rest]

end

/-- With as many variables, corresponding ones at the same locations, a renamed
block has the same program. -/
theorem Program.ofBlock_renamed {table other : SymbolTable}
    (hsize : other.size = table.size)
    (hlocate : ∀ name, other.locate (rename name) = table.locate name)
    (block : Block α) :
    Program.ofBlock other ((block.mapNote change).mapName rename) =
      Program.ofBlock table block := by
  unfold Program.ofBlock
  rw [hsize, Block.code_renamed change rename hlocate, Block.peak_renamed]

theorem Program.ofBlock_mapNote (symbols : SymbolTable) (block : Block α) :
    Program.ofBlock symbols (block.mapNote change) =
      Program.ofBlock symbols block := by
  have hsame : symbols.size = symbols.size := rfl
  have hrenamed := Program.ofBlock_renamed change id hsame (fun _ => rfl) block
  rwa [Block.mapName_id] at hrenamed

end Renamed

/-! ## The analysis and the generation after it -/

/-- A tree with a program is analyzed, and its analysis is the walk over that
program. -/
theorem analyze_eq {tree : Tree} {program : Block Mark}
    (hprogram : tree.program = .ok program) (file : String) :
    analyze tree file =
      .ok ⟨program.findings, file,
        tree.typed (program.types.map Prod.fst)⟩ := by
  unfold analyze
  rw [except_bind_of_ok hprogram,
    except_bind_of_ok (Tree.noteTypes_eq_typed (Tree.program_typesOf hprogram))]
  rfl

def Block.symbols (program : Block Mark) : SymbolTable :=
  SymbolTable.empty.resolveAll (program.findings.filterMap Finding.occurrence?)

theorem Block.symbols_lawful (program : Block Mark) : program.symbols.Lawful :=
  SymbolTable.resolveAll_lawful _

theorem Block.location?_symbols_isSome (program : Block Mark) (name : String) :
    (program.symbols.location? name).isSome ↔ name ∈ program.names := by
  unfold Block.symbols
  rw [SymbolTable.location?_resolveAll_isSome, SymbolTable.location?_empty,
    ← program.names_findings]
  simp [Finding.names]

/-- The code generated for an analyzed tree is the layout of its program. -/
theorem generate_typed_eq {tree : Tree} {program : Block Mark}
    (hprogram : tree.program = .ok program) :
    generate (tree.typed (program.types.map Prod.fst)) program.symbols =
      .ok (Program.ofBlock program.symbols program) := by
  have hshape := tree.sameShape_typed (program.types.map Prod.fst)
  rw [generate_eq (hshape.program hprogram)]
  have hclean : (program.mapNote
      (tree.typed (program.types.map Prod.fst)).remark).faults
        program.symbols = [] := by
    rw [Block.faults_eq_nil_iff, Block.exprNotes_mapNote, Block.names_mapNote]
    constructor
    · intro mark hmark
      obtain ⟨old, hold, rfl⟩ := List.mem_map.mp hmark
      exact Tree.remark_type_ne_void hprogram hold
    · intro name hname
      exact (program.location?_symbols_isSome name).mpr hname
  rw [hclean, Program.ofBlock_mapNote]

end TinyCompiler
