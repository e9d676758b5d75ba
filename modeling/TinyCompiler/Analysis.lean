import TinyCompiler.Diagnostic
import TinyCompiler.SymbolTable
import TinyCompiler.Tree.Unfold

/-!
# Analysis of a program

One walk over the program finds the occurrences of its variables and the places
where it breaks a typing rule: a name before the parts of its phrase, a type
error behind them.  An expression has the type of its outermost form, so an
error in an operand does not spread to the phrases around it.  The symbol table,
the diagnostics and the types noted in the tree all come from that walk.
-/

namespace TinyCompiler

inductive Finding where
  | occurrence (name : String) (line : Nat)
  | mistake (error : TypeError) (line : Nat)
  deriving DecidableEq, Repr

namespace Finding

def occurrence? : Finding → Option (String × Nat)
  | .occurrence name line => some (name, line)
  | .mistake _ _ => none

def mistake? : Finding → Option (TypeError × Nat)
  | .occurrence _ _ => none
  | .mistake error line => some (error, line)

/-- The mistake made unless a rule holds. -/
def require (holds : Bool) (error : TypeError) (line : Nat) : List Finding :=
  if holds then [] else [.mistake error line]

end Finding

def Expr.findings : Expr Mark → List Finding
  | .const _ _ => []
  | .var mark name => [.occurrence name mark.line]
  | .op mark _ left right =>
      left.findings ++ right.findings ++
        Finding.require (left.type = .integer && right.type = .integer)
          .operand mark.line

mutual

def Stmt.findings : Stmt Mark → List Finding
  | .read mark name => [.occurrence name mark.line]
  | .assign mark name value =>
      .occurrence name mark.line ::
        (value.findings ++ Finding.require (value.type = .integer)
          .assignedValue mark.line)
  | .write mark value =>
      value.findings ++ Finding.require (value.type = .integer)
        .writtenValue mark.line
  | .ifThen mark test thenPart =>
      test.findings ++ thenPart.findings ++
        Finding.require (test.type = .boolean) .ifTest mark.line
  | .ifElse mark test thenPart elsePart =>
      test.findings ++ thenPart.findings ++ elsePart.findings ++
        Finding.require (test.type = .boolean) .ifTest mark.line
  | .repeatUntil mark body test =>
      body.findings ++ test.findings ++
        Finding.require (test.type = .boolean) .repeatTest mark.line

def Block.findings : Block Mark → List Finding
  | .nil => []
  | .cons first rest => first.findings ++ rest.findings

end

/-- The types of an expression and of its parts, each at its node. -/
def Expr.types : Expr Mark → List (NodeId × ValueType)
  | .const mark value => [(mark.id, (Expr.const mark value).type)]
  | .var mark name => [(mark.id, (Expr.var mark name).type)]
  | .op mark operator left right =>
      left.types ++ right.types ++ [(mark.id, operator.resultType)]

mutual

def Stmt.types : Stmt Mark → List (NodeId × ValueType)
  | .read _ _ => []
  | .assign _ _ value => value.types
  | .write _ value => value.types
  | .ifThen _ test thenPart => test.types ++ thenPart.types
  | .ifElse _ test thenPart elsePart =>
      test.types ++ thenPart.types ++ elsePart.types
  | .repeatUntil _ body test => body.types ++ test.types

def Block.types : Block Mark → List (NodeId × ValueType)
  | .nil => []
  | .cons first rest => first.types ++ rest.types

end

def Tree.noteTypes (tree : Tree) (types : List (NodeId × ValueType)) :
    Except Tree.Fault Tree :=
  types.foldlM (fun tree entry => tree.setType entry.1 entry.2) tree

structure Analysis where
  findings : List Finding
  file : String
  /-- The tree with the type of every expression of the program noted. -/
  tree : Tree

namespace Analysis

def symbols (analysis : Analysis) : SymbolTable :=
  SymbolTable.empty.resolveAll (analysis.findings.filterMap Finding.occurrence?)

def diagnostics (analysis : Analysis) : List Diagnostic :=
  (analysis.findings.filterMap Finding.mistake?).map fun (error, line) =>
    ⟨.typing error, line, analysis.file⟩

/-- The variables of a program without type errors, or the errors. -/
def accepted (analysis : Analysis) : Except (List Diagnostic) SymbolTable :=
  match analysis.diagnostics with
  | [] => .ok analysis.symbols
  | diagnostics => .error diagnostics

end Analysis

/-- Analyzes the program in a tree.  Types noted earlier have no influence. -/
def analyze (tree : Tree) (file : String) : Except Tree.Fault Analysis := do
  let program ← tree.program
  let typed ← tree.noteTypes program.types
  pure ⟨program.findings, file, typed⟩

end TinyCompiler
