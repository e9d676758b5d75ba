import Mathlib.Data.List.Chain
import TinyCompiler.Proofs.AnalyzedGeneration
import TinyCompiler.Proofs.LexicalGrammar
import TinyCompiler.Proofs.ParserCorrectness

/-!
# Occurrences of variables

The analysis meets the variables of a parsed program in the order in which their
identifiers stand in the text, each of them once.  The line that it notes is the
one of the identifier, but for the target of a `read`, where it is the one of
the keyword.
-/

namespace TinyCompiler

/-! ## Occurrences in a phrase -/

def Expr.occurrences : Expr Nat → List (String × Nat)
  | .const _ _ => []
  | .var line name => [(name, line)]
  | .op _ _ left right => left.occurrences ++ right.occurrences

mutual

def Stmt.occurrences : Stmt Nat → List (String × Nat)
  | .read line name => [(name, line)]
  | .assign line name value => (name, line) :: value.occurrences
  | .write _ value => value.occurrences
  | .ifThen _ test thenPart => test.occurrences ++ thenPart.occurrences
  | .ifElse _ test thenPart elsePart =>
      test.occurrences ++ thenPart.occurrences ++ elsePart.occurrences
  | .repeatUntil _ body test => body.occurrences ++ test.occurrences

def Block.occurrences : Block Nat → List (String × Nat)
  | .nil => []
  | .cons first rest => first.occurrences ++ rest.occurrences

end

namespace Finding

def occurrences (findings : List Finding) : List (String × Nat) :=
  findings.filterMap occurrence?

@[simp] theorem occurrences_append (findings others : List Finding) :
    occurrences (findings ++ others) =
      occurrences findings ++ occurrences others :=
  List.filterMap_append

@[simp] theorem occurrences_require (holds : Bool) (error : TypeError)
    (line : Nat) :
    occurrences (require holds error line) = [] := by
  cases holds <;> rfl

@[simp] theorem occurrences_occurrence (name : String) (line : Nat)
    (findings : List Finding) :
    occurrences (.occurrence name line :: findings) =
      (name, line) :: occurrences findings := rfl

end Finding

theorem Expr.occurrences_findings (expr : Expr Mark) :
    Finding.occurrences expr.findings =
      (expr.mapNote Mark.line).occurrences := by
  induction expr with
  | const mark value => rfl
  | var mark name => rfl
  | op mark operator left right ihLeft ihRight =>
      simp [Expr.findings, Expr.mapNote, Expr.occurrences, ihLeft, ihRight]

mutual

theorem Stmt.occurrences_findings : ∀ stmt : Stmt Mark,
    Finding.occurrences stmt.findings = (stmt.mapNote Mark.line).occurrences
  | .read mark name => rfl
  | .assign mark name value => by
      simp [Stmt.findings, Stmt.mapNote, Stmt.occurrences,
        value.occurrences_findings]
  | .write mark value => by
      simp [Stmt.findings, Stmt.mapNote, Stmt.occurrences,
        value.occurrences_findings]
  | .ifThen mark test thenPart => by
      simp [Stmt.findings, Stmt.mapNote, Stmt.occurrences,
        test.occurrences_findings, Block.occurrences_findings thenPart]
  | .ifElse mark test thenPart elsePart => by
      simp [Stmt.findings, Stmt.mapNote, Stmt.occurrences,
        test.occurrences_findings, Block.occurrences_findings thenPart,
        Block.occurrences_findings elsePart]
  | .repeatUntil mark body test => by
      simp [Stmt.findings, Stmt.mapNote, Stmt.occurrences,
        test.occurrences_findings, Block.occurrences_findings body]

theorem Block.occurrences_findings : ∀ block : Block Mark,
    Finding.occurrences block.findings = (block.mapNote Mark.line).occurrences
  | .nil => rfl
  | .cons first rest => by
      simp [Block.findings, Block.mapNote, Block.occurrences,
        Stmt.occurrences_findings first, Block.occurrences_findings rest]

end

/-! ## Occurrences among tokens -/

namespace Token

/-- The texts of the identifiers among tokens. -/
def names (tokens : List Token) : List String :=
  (tokens.filter fun token => token.kind = .identifier).map Token.text

/-- The identifiers among tokens with their lines. -/
def identifiers (tokens : List Token) : List (String × Nat) :=
  (tokens.filter fun token => token.kind = .identifier).map fun token =>
    (token.text, token.line)

/-- The identifiers among tokens, each with the line that is noted for it: that
of a `read` directly before it, and its own without one.  The first token may
stand directly behind a `read` on the line `keyword`. -/
def occurrences (keyword : Option Nat) : List Token → List (String × Nat)
  | [] => []
  | token :: rest =>
      if token.kind = .identifier then
        (token.text, keyword.getD token.line) :: occurrences none rest
      else occurrences
        (if token.kind = .readWord then some token.line else none) rest

theorem text_mem_names {tokens : List Token} {token : Token}
    (htoken : token ∈ tokens) (hkind : token.kind = .identifier) :
    token.text ∈ names tokens :=
  List.mem_map_of_mem (List.mem_filter.mpr ⟨htoken, decide_eq_true hkind⟩)

variable {keyword : Option Nat} {token : Token} {rest : List Token}

theorem occurrences_identifier (hkind : token.kind = .identifier) :
    occurrences keyword (token :: rest) =
      (token.text, keyword.getD token.line) :: occurrences none rest := by
  rw [occurrences, if_pos hkind]

theorem occurrences_read (hkind : token.kind = .readWord) :
    occurrences keyword (token :: rest) =
      occurrences (some token.line) rest := by
  simp [occurrences, hkind]

theorem occurrences_other (hidentifier : token.kind ≠ .identifier)
    (hread : token.kind ≠ .readWord) :
    occurrences keyword (token :: rest) = occurrences none rest := by
  rw [occurrences, if_neg hidentifier, if_neg hread]

/-- A last token that is no identifier does not matter. -/
theorem occurrences_concat (keyword : Option Nat) (tokens : List Token)
    (hkind : token.kind ≠ .identifier) :
    occurrences keyword (tokens ++ [token]) = occurrences keyword tokens := by
  induction tokens generalizing keyword with
  | nil => simp [occurrences, hkind]
  | cons first rest ih => simp only [List.cons_append, occurrences, ih]

theorem map_fst_occurrences (keyword : Option Nat) (tokens : List Token) :
    (occurrences keyword tokens).map Prod.fst = names tokens := by
  induction tokens generalizing keyword with
  | nil => rfl
  | cons token rest ih =>
      by_cases hkind : token.kind = .identifier
      · rw [occurrences_identifier hkind, List.map_cons, ih]
        simp [names, hkind]
      · rw [occurrences, if_neg hkind, ih]
        simp [names, hkind]

/-- A `read` on the line of the token behind it. -/
def Joined (token next : Token) : Prop :=
  token.kind = .readWord → next.line = token.line

theorem occurrences_of_joined (keyword : Option Nat) {tokens : List Token}
    (hjoined : tokens.IsChain Joined)
    (hkeyword : ∀ line ∈ keyword, ∀ next ∈ tokens.head?, next.line = line) :
    occurrences keyword tokens = identifiers tokens := by
  induction tokens generalizing keyword with
  | nil => rfl
  | cons token rest ih =>
      obtain ⟨hnext, hrest⟩ := List.isChain_cons.mp hjoined
      by_cases hidentifier : token.kind = .identifier
      · have hline : keyword.getD token.line = token.line := by
          cases keyword with
          | none => rfl
          | some line => exact (hkeyword line rfl token rfl).symm
        rw [occurrences_identifier hidentifier, hline, ih none hrest (by simp)]
        simp [identifiers, hidentifier]
      · have hbehind : identifiers (token :: rest) = identifiers rest := by
          simp [identifiers, hidentifier]
        rw [hbehind]
        by_cases hread : token.kind = .readWord
        · rw [occurrences_read hread]
          refine ih _ hrest ?_
          rintro _ ⟨⟩ next hhead
          exact hnext next hhead hread
        · rw [occurrences_other hidentifier hread]
          exact ih none hrest (by simp)

end Token

namespace Grammar

open Token (occurrences_identifier occurrences_read occurrences_other)

theorem Terminal.occurrences_cons {kinds : List Token.Kind}
    (terminal : Terminal kinds) {keyword : Option Nat} {rest : List Token}
    (hkinds : .identifier ∉ kinds ∧ .readWord ∉ kinds) :
    Token.occurrences keyword (terminal.token :: rest) =
      Token.occurrences none rest := by
  apply occurrences_other
  · intro hkind
    exact hkinds.1 (hkind ▸ terminal.kind_mem)
  · intro hkind
    exact hkinds.2 (hkind ▸ terminal.kind_mem)

mutual

theorem Exp.occurrences_tokens : ∀ (exp : Exp) (rest : List Token),
    Token.occurrences none (exp.tokens ++ rest) =
      exp.expr.occurrences ++ Token.occurrences none rest
  | .mk left comparison, rest => by
      rw [Exp.tokens, List.append_assoc, left.occurrences_tokens,
        comparison.occurrences_tokens left.expr, Exp.expr]

/-- What follows a left operand adds its occurrences behind those of the
operand. -/
theorem Comparison.occurrences_tokens :
    ∀ (comparison : Comparison) (left : Expr Nat) (rest : List Token),
      left.occurrences ++ Token.occurrences none (comparison.tokens ++ rest) =
        (comparison.extend left).occurrences ++ Token.occurrences none rest
  | .none, left, rest => rfl
  | .some operator right, left, rest => by
      rw [Comparison.tokens, List.cons_append,
        operator.occurrences_cons (by decide), right.occurrences_tokens]
      simp [Comparison.extend, Terminal.join, Expr.occurrences]

theorem SimpleExp.occurrences_tokens :
    ∀ (simple : SimpleExp) (rest : List Token),
    Token.occurrences none (simple.tokens ++ rest) =
      simple.expr.occurrences ++ Token.occurrences none rest
  | .mk first terms, rest => by
      rw [SimpleExp.tokens, List.append_assoc, first.occurrences_tokens,
        terms.occurrences_tokens first.expr, SimpleExp.expr]

theorem Terms.occurrences_tokens :
    ∀ (terms : Terms) (left : Expr Nat) (rest : List Token),
      left.occurrences ++ Token.occurrences none (terms.tokens ++ rest) =
        (terms.extend left).occurrences ++ Token.occurrences none rest
  | .nil, left, rest => rfl
  | .cons operator next terms, left, rest => by
      have hjoined :=
        terms.occurrences_tokens (operator.join left next.expr) rest
      rw [Terms.tokens, List.cons_append, operator.occurrences_cons (by decide),
        List.append_assoc, next.occurrences_tokens, Terms.extend, ← hjoined]
      simp [Terminal.join, Expr.occurrences]

theorem Term.occurrences_tokens : ∀ (term : Term) (rest : List Token),
    Token.occurrences none (term.tokens ++ rest) =
      term.expr.occurrences ++ Token.occurrences none rest
  | .mk first factors, rest => by
      rw [Term.tokens, List.append_assoc, first.occurrences_tokens,
        factors.occurrences_tokens first.expr, Term.expr]

theorem Factors.occurrences_tokens :
    ∀ (factors : Factors) (left : Expr Nat) (rest : List Token),
      left.occurrences ++ Token.occurrences none (factors.tokens ++ rest) =
        (factors.extend left).occurrences ++ Token.occurrences none rest
  | .nil, left, rest => rfl
  | .cons operator next factors, left, rest => by
      have hjoined :=
        factors.occurrences_tokens (operator.join left next.expr) rest
      rw [Factors.tokens, List.cons_append,
        operator.occurrences_cons (by decide), List.append_assoc,
        next.occurrences_tokens, Factors.extend, ← hjoined]
      simp [Terminal.join, Expr.occurrences]

theorem Factor.occurrences_tokens : ∀ (factor : Factor) (rest : List Token),
    Token.occurrences none (factor.tokens ++ rest) =
      factor.expr.occurrences ++ Token.occurrences none rest
  | .group opening inner closing, rest => by
      simp only [Factor.tokens, List.cons_append, List.append_assoc,
        List.nil_append]
      rw [opening.occurrences_cons (by decide), inner.occurrences_tokens,
        closing.occurrences_cons (by decide)]
      rfl
  | .number token, rest => token.occurrences_cons (by decide)
  | .identifier token, rest => occurrences_identifier token.kind_eq

end

mutual

theorem Statement.occurrences_tokens :
    ∀ (statement : Statement) (rest : List Token),
    Token.occurrences none (statement.tokens ++ rest) =
      statement.stmt.occurrences ++ Token.occurrences none rest
  | .ifThen ifWord test thenWord thenPart endWord, rest => by
      simp only [Statement.tokens, List.cons_append, List.append_assoc,
        List.nil_append]
      rw [ifWord.occurrences_cons (by decide), test.occurrences_tokens,
        thenWord.occurrences_cons (by decide), thenPart.occurrences_tokens,
        endWord.occurrences_cons (by decide)]
      simp [Statement.stmt, Stmt.occurrences]
  | .ifElse ifWord test thenWord thenPart elseWord elsePart endWord, rest => by
      simp only [Statement.tokens, List.cons_append, List.append_assoc,
        List.nil_append]
      rw [ifWord.occurrences_cons (by decide), test.occurrences_tokens,
        thenWord.occurrences_cons (by decide), thenPart.occurrences_tokens,
        elseWord.occurrences_cons (by decide), elsePart.occurrences_tokens,
        endWord.occurrences_cons (by decide)]
      simp [Statement.stmt, Stmt.occurrences]
  | .repeatUntil repeatWord body untilWord test, rest => by
      simp only [Statement.tokens, List.cons_append, List.append_assoc]
      rw [repeatWord.occurrences_cons (by decide), body.occurrences_tokens,
        untilWord.occurrences_cons (by decide), test.occurrences_tokens]
      simp [Statement.stmt, Stmt.occurrences]
  | .assign target sign value, rest => by
      simp only [Statement.tokens, List.cons_append]
      rw [occurrences_identifier target.kind_eq,
        sign.occurrences_cons (by decide), value.occurrences_tokens]
      rfl
  | .read readWord target, rest => by
      simp only [Statement.tokens, List.cons_append, List.nil_append]
      rw [occurrences_read readWord.kind_eq,
        occurrences_identifier target.kind_eq]
      rfl
  | .write writeWord value, rest => by
      rw [Statement.tokens, List.cons_append,
        writeWord.occurrences_cons (by decide), value.occurrences_tokens]
      rfl

theorem Sequence.occurrences_tokens :
    ∀ (sequence : Sequence) (rest : List Token),
    Token.occurrences none (sequence.tokens ++ rest) =
      sequence.block.occurrences ++ Token.occurrences none rest
  | .mk first others, rest => by
      rw [Sequence.tokens, List.append_assoc, first.occurrences_tokens,
        others.occurrences_tokens]
      simp [Sequence.block, Block.occurrences]

theorem Statements.occurrences_tokens :
    ∀ (others : Statements) (rest : List Token),
    Token.occurrences none (others.tokens ++ rest) =
      others.block.occurrences ++ Token.occurrences none rest
  | .nil, rest => rfl
  | .cons semicolon next others, rest => by
      rw [Statements.tokens, List.cons_append,
        semicolon.occurrences_cons (by decide), List.append_assoc,
        next.occurrences_tokens, others.occurrences_tokens]
      simp [Statements.block, Block.occurrences]

end

end Grammar

/-! ## Scanned tokens -/

/-- Only the last of the tokens of a text is an end of input. -/
theorem Scanner.programTokens_of_tokenize {source : String}
    {file : Option String} {tokens : List Token}
    (hscan : tokenize source file = .ok tokens) :
    ∃ line, tokens = Parser.programTokens tokens ++
      [Token.endOfInput line] := by
  obtain ⟨pieces, hsplits, rfl⟩ := splits_of_tokenize hscan
  refine ⟨_, congrArg (· ++ _) (Parser.programTokens_end ?_ rfl).symm⟩
  rintro ⟨token, htoken, hkind⟩
  exact hsplits.kind_ne_end [] token htoken hkind

/-! ## The table of a parsed program -/

section Parsed

variable {tokens : List Token} {file : String} {tree : Tree}

/-- The analysis of a parsed tree records the identifiers of the program. -/
theorem Parser.analysis_records (hparse : parse tokens file = .ok tree)
    (sourceFile : String) :
    ∃ program analysis,
      tree.program = .ok program ∧ analyze tree sourceFile = .ok analysis ∧
      analysis.symbols = program.symbols ∧
      analysis.symbols.Records
        (Token.occurrences none (programTokens tokens)) := by
  -- The derivation of the tokens stands between the text and the walk over the
  -- tree.
  obtain ⟨sequence, htokens, -, rfl⟩ := derivation_of_parse hparse
  obtain ⟨program, hprogram, hlines⟩ := sequence.program_tree
  have hnoted := sequence.occurrences_tokens []
  rw [List.append_nil,
    htokens, ← hlines, ← program.occurrences_findings] at hnoted
  refine ⟨program, _, hprogram, analyze_eq hprogram sourceFile, rfl, ?_⟩
  rw [hnoted.trans (List.append_nil _)]
  exact SymbolTable.resolveAll_records _

theorem Parser.names_subset {program : Block Mark}
    (hparse : parse tokens file = .ok tree)
    (hprogram : tree.program = .ok program) :
    program.names ⊆ Token.names tokens := by
  obtain ⟨same, analysis, hsame, -, hsymbols, hrecords⟩ :=
    analysis_records hparse file
  obtain rfl := Except.ok.inj (hprogram.symm.trans hsame)
  intro name hname
  rw [← program.location?_symbols_isSome, ← hsymbols, hrecords.location?_isSome,
    Token.map_fst_occurrences] at hname
  have hbefore : programTokens tokens ⊆ tokens := List.takeWhile_subset _
  exact List.map_subset _ (List.filter_subset _ hbefore) hname

/-- The table of a parsed program has the distinct identifiers of the text, in
the order in which they first stand there, and as many lines for each as it has
identifiers. -/
theorem symbols_follow_tokens (tokens : List Token) (file : String)
    (tree : Tree) (hparse : Parser.parse tokens file = .ok tree)
    (sourceFile : String) :
    ∃ analysis, analyze tree sourceFile = .ok analysis ∧
      analysis.symbols.toList.map Symbol.name =
        (Token.names (Parser.programTokens tokens)).eraseDups ∧
      analysis.symbols.toList.map Symbol.location =
        List.range analysis.symbols.size ∧
      ∀ symbol ∈ analysis.symbols.toList,
        symbol.lines.length =
          (Token.names (Parser.programTokens tokens)).count symbol.name := by
  obtain ⟨-, analysis, -, hanalyze, -, hrecords⟩ :=
    Parser.analysis_records hparse sourceFile
  refine ⟨analysis, hanalyze, ?_, hrecords.locations, ?_⟩
  · rw [← Token.map_fst_occurrences none]
    exact hrecords.names
  · intro symbol hsymbol
    rw [hrecords.lines symbol hsymbol, SymbolTable.length_linesOf,
      Token.map_fst_occurrences]

/-- A loop whose test names the variables of its body in the other order. -/
def countdown : List Token :=
  [⟨.repeatWord, "repeat", 1⟩, ⟨.identifier, "b", 1⟩, ⟨.assignment, ":=", 1⟩,
    ⟨.openParen, "(", 1⟩, ⟨.identifier, "a", 1⟩, ⟨.dash, "-", 1⟩,
      ⟨.number, "1", 1⟩,
    ⟨.closeParen, ")", 1⟩, ⟨.untilWord, "until", 2⟩, ⟨.identifier, "a", 2⟩,
      ⟨.equals, "=", 2⟩,
    ⟨.identifier, "b", 2⟩, ⟨.endOfInput, "EOF", 2⟩, ⟨.identifier, "c", 3⟩]

def countdownTree : Tree where
  nodes := #[.fresh 1 (.var "a"), .fresh 1 (.const 1),
    .fresh 1 (.op .minus 0 1), .fresh 1 (.assign "b" 2), .fresh 2 (.var "a"),
    .fresh 2 (.var "b"),
    .fresh 2 (.op .equal 4 5), .fresh 1 (.repeatUntil 3 6)]
  root := some 7

theorem countdown_symbols :
    ∃ tree analysis, Parser.parse countdown "sample" = .ok tree ∧
      analyze tree "sample" = .ok analysis ∧
      analysis.symbols.toList.map Symbol.name = ["b", "a"] ∧
      ∀ symbol ∈ analysis.symbols.toList,
        symbol.name = "b" → symbol.lines.length = 2 := by
  have hparse : Parser.parse countdown "sample" = .ok countdownTree := by
    decide +kernel
  obtain ⟨analysis, hanalyze, hnames, -, hcounts⟩ :=
    symbols_follow_tokens _ _ _ hparse "sample"
  refine ⟨_, analysis, hparse, hanalyze, hnames.trans (by decide +kernel), ?_⟩
  intro symbol hsymbol hname
  rw [hcounts symbol hsymbol, hname]
  decide +kernel

/-! ## The noted lines -/

/-- The lines noted for a variable of a text are those of its identifiers,
except that the target of a `read` has the line of the keyword.  That makes no
difference where each `read` stands on the line of its target. -/
theorem noted_lines_of_identifiers (source : String)
    (sourceFile : Option String) (tokens : List Token) (file : String)
    (tree : Tree) (hscan : Scanner.tokenize source sourceFile = .ok tokens)
    (hparse : Parser.parse tokens file = .ok tree) :
    ∃ analysis, analyze tree file = .ok analysis ∧
      ∀ symbol ∈ analysis.symbols.toList,
        symbol.lines =
          SymbolTable.linesOf symbol.name (Token.occurrences none tokens) ∧
        (tokens.IsChain Token.Joined →
          symbol.lines =
            SymbolTable.linesOf symbol.name (Token.identifiers tokens)) := by
  obtain ⟨-, analysis, -, hanalyze, -, hrecords⟩ :=
    Parser.analysis_records hparse file
  obtain ⟨line, htokens⟩ := Scanner.programTokens_of_tokenize hscan
  have hend : (Token.endOfInput line).kind ≠ .identifier := by
    simp [Token.endOfInput]
  have hnoted :=
    Token.occurrences_concat none (Parser.programTokens tokens) hend
  rw [← htokens] at hnoted
  rw [← hnoted] at hrecords
  refine ⟨analysis, hanalyze, fun symbol hsymbol => ?_⟩
  have hlines := hrecords.lines symbol hsymbol
  refine ⟨hlines, fun hjoined => ?_⟩
  rw [← Token.occurrences_of_joined none hjoined (by simp)]
  exact hlines

def echoLines : String := "read x;\nwrite x"

def echoLinesTokens : List Token :=
  [⟨.readWord, "read", 1⟩, ⟨.identifier, "x", 1⟩, ⟨.semicolon, ";", 1⟩,
    ⟨.writeWord, "write", 2⟩, ⟨.identifier, "x", 2⟩, Token.endOfInput 2]

def echoLinesTree : Tree where
  nodes := #[⟨.read "x", 1, some 2, .void⟩, .fresh 2 (.var "x"),
    .fresh 2 (.write 1)]
  root := some 0

theorem echo_noted_lines :
    ∃ tokens tree analysis, Scanner.tokenize echoLines none = .ok tokens ∧
      Parser.parse tokens "sample" = .ok tree ∧
        analyze tree "sample" = .ok analysis ∧
      ∀ symbol ∈ analysis.symbols.toList,
        symbol.name = "x" → symbol.lines = [1, 2] := by
  have hscan : Scanner.tokenize echoLines none = .ok echoLinesTokens := by
    with_unfolding_all rfl
  have hparse : Parser.parse echoLinesTokens "sample" = .ok echoLinesTree := by
    decide +kernel
  obtain ⟨analysis, hanalyze, hlines⟩ :=
    noted_lines_of_identifiers _ _ _ _ _ hscan hparse
  refine ⟨_, _, analysis, hscan, hparse, hanalyze,
    fun symbol hsymbol hname => ?_⟩
  rw [(hlines symbol hsymbol).2
    (by simp [Token.Joined, echoLinesTokens]), hname]
  decide +kernel

def brokenRead : String := "read\nx"

def brokenReadTokens : List Token :=
  [⟨.readWord, "read", 1⟩, ⟨.identifier, "x", 2⟩, Token.endOfInput 2]

def brokenReadTree : Tree where
  nodes := #[.fresh 1 (.read "x")]
  root := some 0

/-- The target of a `read` on the line before it is noted on a line where it
does not stand. -/
theorem broken_read_noted_at_keyword :
    ∃ tokens tree analysis, Scanner.tokenize brokenRead none = .ok tokens ∧
      Parser.parse tokens "sample" = .ok tree ∧
        analyze tree "sample" = .ok analysis ∧
      Token.identifiers tokens = [("x", 2)] ∧
      ∃ symbol ∈ analysis.symbols.toList,
        symbol.name = "x" ∧ symbol.lines = [1] := by
  have hscan : Scanner.tokenize brokenRead none = .ok brokenReadTokens := by
    with_unfolding_all rfl
  have hparse : Parser.parse brokenReadTokens "sample" =
      .ok brokenReadTree := by
    decide +kernel
  obtain ⟨-, analysis, -, hanalyze, -, hrecords⟩ :=
    Parser.analysis_records hparse "sample"
  refine ⟨_, _, analysis, hscan, hparse, hanalyze, by decide +kernel, ?_⟩
  have hname : "x" ∈ analysis.symbols.toList.map Symbol.name := by
    rw [hrecords.names]
    decide +kernel
  obtain ⟨symbol, hsymbol, hname⟩ := List.mem_map.mp hname
  refine ⟨symbol, hsymbol, hname, ?_⟩
  rw [hrecords.lines symbol hsymbol, hname]
  decide +kernel

end Parsed

end TinyCompiler
