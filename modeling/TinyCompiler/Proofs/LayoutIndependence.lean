import Mathlib.SetTheory.Cardinal.Arithmetic
import TinyCompiler.Proofs.AnalyzedGeneration
import TinyCompiler.Proofs.CompiledPrograms
import TinyCompiler.Proofs.Occurrences
import TinyCompiler.Proofs.RenamedParsing
import TinyCompiler.Proofs.TypeSystem

/-!
# Code depends on neither layout nor names

A program and a renamed one with other lines break the same typing rules, give
their variables the same locations and have the same code.  So whatever a
compilation makes of two lists of tokens is the same but for the names, if the
tokens have the same kinds, the numbers the same texts, and the identifiers
correspond one to one.
-/

namespace TinyCompiler

/-! ## Findings -/

/-- The typing rules that are broken, in order. -/
def Finding.errors (findings : List Finding) : List TypeError :=
  (Finding.mistakes findings).map Prod.fst

namespace Finding

@[simp] theorem errors_append (findings others : List Finding) :
    errors (findings ++ others) = errors findings ++ errors others := by
  simp [errors]

@[simp] theorem errors_occurrence (name : String) (line : Nat)
    (findings : List Finding) :
    errors (.occurrence name line :: findings) = errors findings := rfl

@[simp] theorem errors_require (holds : Bool) (error : TypeError) (line : Nat) :
    errors (require holds error line) = if holds then [] else [error] := by
  cases holds <;> rfl

end Finding

section Phrases

variable (change : Mark → Mark) (rename : String → String)

@[simp] theorem Expr.type_mapName_mapNote (expr : Expr Mark) :
    ((expr.mapNote change).mapName rename).type = expr.type := by
  cases expr <;> rfl

theorem Expr.errors_findings_renamed (expr : Expr Mark) :
    Finding.errors ((expr.mapNote change).mapName rename).findings =
      Finding.errors expr.findings := by
  induction expr with
  | const mark value => rfl
  | var mark name => rfl
  | op mark operator left right ihLeft ihRight =>
      simp [Expr.mapNote, Expr.mapName, Expr.findings, ihLeft, ihRight]

mutual

theorem Stmt.errors_findings_renamed : ∀ stmt : Stmt Mark,
    Finding.errors ((stmt.mapNote change).mapName rename).findings =
      Finding.errors stmt.findings
  | .read mark name => rfl
  | .assign mark name value => by
      simp [Stmt.mapNote, Stmt.mapName, Stmt.findings,
        Expr.errors_findings_renamed]
  | .write mark value => by
      simp [Stmt.mapNote, Stmt.mapName, Stmt.findings,
        Expr.errors_findings_renamed]
  | .ifThen mark test thenPart => by
      simp [Stmt.mapNote, Stmt.mapName, Stmt.findings,
        Expr.errors_findings_renamed, Block.errors_findings_renamed thenPart]
  | .ifElse mark test thenPart elsePart => by
      simp [Stmt.mapNote, Stmt.mapName, Stmt.findings,
        Expr.errors_findings_renamed, Block.errors_findings_renamed thenPart,
        Block.errors_findings_renamed elsePart]
  | .repeatUntil mark body test => by
      simp [Stmt.mapNote, Stmt.mapName, Stmt.findings,
        Expr.errors_findings_renamed, Block.errors_findings_renamed body]

theorem Block.errors_findings_renamed : ∀ block : Block Mark,
    Finding.errors ((block.mapNote change).mapName rename).findings =
      Finding.errors block.findings
  | .nil => rfl
  | .cons first rest => by
      simp [Block.mapNote, Block.mapName, Block.findings,
        Stmt.errors_findings_renamed first, Block.errors_findings_renamed rest]

end

end Phrases

/-! ## Locations -/

namespace SymbolTable

/-- Corresponding names have the same locations. -/
structure Renamed (rename : String → String)
    (table other : SymbolTable) : Prop where
  size : other.size = table.size
  locations : ∀ name, other.location? (rename name) = table.location? name

section Renamed

variable {rename : String → String} {table other : SymbolTable}

theorem renamed_empty : Renamed rename SymbolTable.empty SymbolTable.empty where
  size := rfl
  locations := fun name => by rw [location?_empty, location?_empty]

theorem Renamed.resolve (hrenamed : Renamed rename table other)
    (hinjective : Function.Injective rename) (name : String)
    (line otherLine : Nat) :
    Renamed rename (table.resolve name line).2
      (other.resolve (rename name) otherLine).2 := by
  unfold SymbolTable.resolve
  rw [hrenamed.locations]
  cases table.location? name with
  | some location =>
      constructor
      · have hsize := hrenamed.size
        simpa [SymbolTable.refer, SymbolTable.size] using hsize
      · exact hrenamed.locations
  | none =>
      constructor
      · have hsize := hrenamed.size
        simpa [SymbolTable.insert, SymbolTable.size] using hsize
      · intro found
        rw [location?_insert, location?_insert, hrenamed.size,
          hrenamed.locations]
        simp only [hinjective.eq_iff]

/-- The lines of the occurrences do not matter. -/
theorem Renamed.resolveAll (hrenamed : Renamed rename table other)
    (hinjective : Function.Injective rename)
    {occurrences others : List (String × Nat)}
    (hnames : others.map Prod.fst = (occurrences.map Prod.fst).map rename) :
    Renamed rename (table.resolveAll occurrences)
      (other.resolveAll others) := by
  induction occurrences generalizing table other others with
  | nil =>
      obtain rfl : others = [] := List.map_eq_nil_iff.mp hnames
      exact hrenamed
  | cons occurrence rest ih =>
      obtain ⟨first, more, rfl, hfirst, hrest⟩ := List.map_eq_cons_iff.mp hnames
      have hstep :=
        hrenamed.resolve hinjective occurrence.1 occurrence.2 first.2
      rw [← hfirst] at hstep
      exact ih hstep hrest

theorem Renamed.locate_eq (hrenamed : Renamed rename table other)
    (name : String) :
    other.locate (rename name) = table.locate name := by
  unfold locate
  rw [hrenamed.locations]

/-- In lawful tables the variables at one location correspond. -/
theorem Renamed.names_eq (hrenamed : Renamed rename table other)
    (hlawful : table.Lawful) (hother : other.Lawful) :
    other.toList.map Symbol.name =
      (table.toList.map Symbol.name).map rename := by
  apply List.ext_getElem?
  intro location
  simp only [toList, List.getElem?_map, Array.getElem?_toList]
  cases hsymbol : table.entries[location]? with
  | none =>
      have hbound := Array.getElem?_eq_none_iff.mp hsymbol
      have hnone : other.entries[location]? = none :=
        Array.getElem?_eq_none_iff.mpr (hrenamed.size.trans_le hbound)
      rw [hnone]
      rfl
  | some symbol =>
      have hlocation :=
        (hlawful symbol.name location).mpr ⟨symbol, hsymbol, rfl⟩
      rw [← hrenamed.locations] at hlocation
      obtain ⟨same, hsame, hname⟩ := (hother _ location).mp hlocation
      rw [hsame]
      exact congrArg some hname

end Renamed

end SymbolTable

/-! ## Compilations -/

section Compilations

variable {rename : String → String}

theorem Block.symbols_renamed (hinjective : Function.Injective rename)
    (change : Mark → Mark) (program : Block Mark) :
    SymbolTable.Renamed rename program.symbols
      ((program.mapNote change).mapName rename).symbols := by
  have hnames :
      Finding.names ((program.mapNote change).mapName rename).findings =
      (Finding.names program.findings).map rename := by
    rw [Block.names_findings, Block.names_mapName, Block.names_mapNote,
      Block.names_findings]
  exact SymbolTable.renamed_empty.resolveAll hinjective hnames

theorem Block.name_mem_of_mem_symbols {program : Block Mark} {symbol : Symbol}
    (hsymbol : symbol ∈ program.symbols.toList) :
    symbol.name ∈ program.names := by
  obtain ⟨location, hentry⟩ := List.mem_iff_getElem?.mp hsymbol
  have hlocation := (program.symbols_lawful symbol.name location).mpr
    ⟨symbol, (Array.getElem?_toList).symm.trans hentry, rfl⟩
  rw [← program.location?_symbols_isSome, hlocation]
  rfl

/-- What a tree and a renamed one are analyzed as, and the program generated for
both. -/
theorem Tree.Renamed.compiled {tree other : Tree}
    (hrenamed : Tree.Renamed rename tree other)
    (hinjective : Function.Injective rename) {program : Block Mark}
    (hprogram : tree.program = .ok program) (file otherFile : String) :
    ∃ analysis otherAnalysis code,
      analyze tree file = .ok analysis ∧
        analyze other otherFile = .ok otherAnalysis ∧
      otherAnalysis.diagnostics.map Diagnostic.problem =
        analysis.diagnostics.map Diagnostic.problem ∧
      SymbolTable.Renamed rename analysis.symbols otherAnalysis.symbols ∧
      otherAnalysis.symbols.toList.map Symbol.name =
        (analysis.symbols.toList.map Symbol.name).map rename ∧
      (∀ symbol ∈ analysis.symbols.toList, symbol.name ∈ program.names) ∧
      generate analysis.tree analysis.symbols = .ok code ∧
      generate otherAnalysis.tree otherAnalysis.symbols = .ok code := by
  have hother := hrenamed.program hprogram
  have hsymbols := program.symbols_renamed hinjective other.remark
  refine ⟨_, _, _, analyze_eq hprogram file, analyze_eq hother otherFile,
    ?problems, hsymbols,
    hsymbols.names_eq program.symbols_lawful (Block.symbols_lawful _),
    fun _ => Block.name_mem_of_mem_symbols, generate_typed_eq hprogram, ?code⟩
  case problems =>
    have hproblems : ∀ analysis : Analysis,
        analysis.diagnostics.map Diagnostic.problem =
        (Finding.errors analysis.findings).map Problem.typing := by
      intro analysis
      simp [Analysis.diagnostics, Finding.errors, Finding.mistakes]
    rw [hproblems, hproblems, Block.errors_findings_renamed]
  case code =>
    refine (generate_typed_eq hother).trans (congrArg Except.ok ?_)
    exact Program.ofBlock_renamed other.remark rename hsymbols.size
      hsymbols.locate_eq program

/-! ## Identifiers -/

theorem Token.renamed_of_agree {tokens others : List Token}
    {total : String → String}
    (htokens : List.Forall₂ (Token.Renamed rename) tokens others)
    (hagree : ∀ token ∈ tokens,
      token.kind = .identifier → total token.text = rename token.text) :
    List.Forall₂ (Token.Renamed total) tokens others := by
  induction htokens with
  | nil => exact .nil
  | @cons token other rest otherRest htoken _ ih =>
      have hname : token.kind = .identifier →
          other.text = total token.text := fun hkind =>
        (htoken.name hkind).trans (hagree token List.mem_cons_self hkind).symm
      have hrest :=
        ih fun same hsame => hagree same (List.mem_cons_of_mem token hsame)
      exact .cons ⟨htoken.kind, htoken.number, hname⟩ hrest

/-- A renaming that tells finitely many names apart is one of all names on
them. -/
theorem exists_injective_extension {names : List String}
    (hinjective : Set.InjOn rename { name | name ∈ names }) :
    ∃ total : String → String, Function.Injective total ∧
      ∀ name ∈ names, total name = rename name := by
  let given : { name | name ∈ names } ↪ String :=
    ⟨fun name => rename name, fun first second hsame =>
      Subtype.ext (hinjective first.2 second.2 hsame)⟩
  have hfew : Cardinal.mk { name | name ∈ names } < Cardinal.mk String :=
    (Cardinal.lt_aleph0_iff_finite.mpr
      (List.finite_toSet names).to_subtype).trans_le
      (Cardinal.aleph0_le_mk String)
  obtain ⟨total, htotal⟩ :=
    Cardinal.extend_function_of_lt given hfew ⟨Equiv.refl String⟩
  exact ⟨total, total.injective, fun name hname => htotal ⟨name, hname⟩⟩

/-! ## Two lists of tokens -/

/-- Of two lists of tokens of the same kinds, with the same numbers and with
identifiers that correspond one to one, both are rejected for the same reason,
or both are programs.  Then they break the same typing rules, corresponding
variables have the same locations, and the code is the same. -/
theorem code_independent_of_layout {tokens others : List Token}
    (htokens : List.Forall₂ (Token.Renamed rename) tokens others)
    (hinjective : Set.InjOn rename { name | name ∈ Token.names tokens })
    (file otherFile : String) :
    (∃ diagnostic other,
        Parser.parse tokens file = .error (.rejected diagnostic) ∧
        Parser.parse others otherFile = .error (.rejected other) ∧
        other.problem.withoutText = diagnostic.problem.withoutText) ∨
      ∃ tree other analysis otherAnalysis code,
        Parser.parse tokens file = .ok tree ∧
          Parser.parse others otherFile = .ok other ∧
        analyze tree file = .ok analysis ∧
          analyze other otherFile = .ok otherAnalysis ∧
        otherAnalysis.diagnostics.map Diagnostic.problem =
          analysis.diagnostics.map Diagnostic.problem ∧
        (∀ name ∈ Token.names tokens,
          otherAnalysis.symbols.location? (rename name) =
          analysis.symbols.location? name) ∧
        otherAnalysis.symbols.toList.map Symbol.name =
          (analysis.symbols.toList.map Symbol.name).map rename ∧
        generate analysis.tree analysis.symbols = .ok code ∧
        generate otherAnalysis.tree otherAnalysis.symbols = .ok code := by
  obtain ⟨total, htotal, hagree⟩ := exists_injective_extension hinjective
  have htotalTokens := Token.renamed_of_agree htokens fun token htoken hkind =>
    hagree token.text (Token.text_mem_names htoken hkind)
  rcases Parser.parse_renamed htotalTokens file otherFile with
    ⟨stop, other, hparse, hother, hstop⟩ | ⟨tree, other, hparse,
      hother, hrenamed⟩
  · obtain ⟨diagnostic, rfl⟩ := Parser.parse_eq_error hparse
    obtain ⟨otherDiagnostic, rfl⟩ := Parser.parse_eq_error hother
    cases hstop with
    | rejected hsame =>
        exact .inl ⟨diagnostic, otherDiagnostic, hparse, hother, hsame⟩
  · obtain ⟨program, hprogram⟩ :=
      (Parser.parse_built hparse).wellFormed.program_exists
      (Parser.parse_acyclic hparse)
    obtain ⟨analysis, otherAnalysis, code, hanalysis, hotherAnalysis,
      hproblems, hsymbols, hnames, hmem, hcode,
      hotherCode⟩ := hrenamed.compiled htotal hprogram file otherFile
    refine .inr ⟨tree, other, analysis, otherAnalysis, code, hparse,
      hother, hanalysis, hotherAnalysis, hproblems, ?locations, ?names, hcode,
      hotherCode⟩
    case locations =>
      intro name hname
      rw [← hagree name hname, hsymbols.locations]
    case names =>
      rw [hnames]
      apply List.map_congr_left
      intro name hname
      obtain ⟨symbol, hsymbol, rfl⟩ := List.mem_map.mp hname
      exact hagree _ (Parser.names_subset hparse hprogram (hmem symbol hsymbol))

end Compilations

def echoOnce : List Token :=
  [⟨.readWord, "read", 1⟩, ⟨.identifier, "x", 1⟩, ⟨.semicolon, ";", 1⟩,
    ⟨.writeWord, "write", 1⟩, ⟨.identifier, "x", 1⟩]

/-- The same program with another name for its variable, spread over more
lines. -/
def echoSpread : List Token :=
  [⟨.readWord, "read", 2⟩, ⟨.identifier, "total", 3⟩, ⟨.semicolon, ";", 5⟩,
    ⟨.writeWord, "write", 6⟩, ⟨.identifier, "total", 8⟩]

theorem echo_independent_of_layout :
    ∃ tree other analysis otherAnalysis code,
      Parser.parse echoOnce "once" = .ok tree ∧
        Parser.parse echoSpread "spread" = .ok other ∧
      analyze tree "once" = .ok analysis ∧
        analyze other "spread" = .ok otherAnalysis ∧
      otherAnalysis.symbols.location? "total" = analysis.symbols.location? "x" ∧
      generate analysis.tree analysis.symbols = .ok code ∧
      generate otherAnalysis.tree otherAnalysis.symbols = .ok code := by
  have htokens : List.Forall₂ (Token.Renamed fun _ => "total") echoOnce
      echoSpread := by
    decide +kernel
  have hinjective : Set.InjOn (fun _ => "total")
      { name | name ∈ Token.names echoOnce } := by
    have honly : ∀ name ∈ Token.names echoOnce, name = "x" := by decide +kernel
    exact fun first hfirst second hsecond _ =>
      (honly first hfirst).trans (honly second hsecond).symm
  have hparse : (Parser.parse echoOnce "once").isOk := by decide +kernel
  rcases code_independent_of_layout htokens hinjective "once" "spread" with
    ⟨diagnostic, _, hrejected, -⟩ | ⟨tree, other, analysis, otherAnalysis, code,
      htree, hother, hanalysis, hotherAnalysis, -, hlocations, -, hcode,
      hotherCode⟩
  · rw [hrejected] at hparse
    contradiction
  · exact ⟨tree, other, analysis, otherAnalysis, code, htree, hother, hanalysis,
      hotherAnalysis, hlocations "x" (by decide +kernel), hcode, hotherCode⟩

end TinyCompiler
