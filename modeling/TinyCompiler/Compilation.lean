import TinyCompiler.Analysis
import TinyCompiler.Generator.Lowering
import TinyCompiler.Parser.Rules
import TinyCompiler.Token.Scanner

/-!
# Compiling a program text

The whole way from a text to a program.  It ends at the first thing wrong with
the text, or at all type errors together; code is generated only without them.
-/

namespace TinyCompiler

structure Compilation where
  /-- The tree with the type of every expression of the program. -/
  tree : Tree
  symbols : SymbolTable
  program : Program

inductive CompileError where
  | rejected (diagnostic : Diagnostic)
  | illTyped (diagnostics : List Diagnostic)
  | generation (error : GenerationError)
  deriving DecidableEq, Repr

namespace CompileError

def message : CompileError → String
  | .rejected diagnostic => "syntax error at " ++ diagnostic.message
  | .illTyped diagnostics => toString diagnostics.length ++ " type error(s)"
  | .generation error => "internal error: " ++ error.message

def ofFault (fault : Tree.Fault) : CompileError :=
  .generation (.malformed fault)

def ofStop : Parser.Stop → CompileError
  | .rejected diagnostic => .rejected diagnostic
  | .misused fault => ofFault fault

end CompileError

/-- The name of a text that comes from no file. -/
def inputFile : String := "<input>"

def compile (source : String) (file : Option String) :
    Except CompileError Compilation := do
  let file := file.getD inputFile
  let tokens ← (Scanner.tokenize source (some file)).mapError .rejected
  let tree ← (Parser.parse tokens file).mapError .ofStop
  let analysis ← (analyze tree file).mapError .ofFault
  let symbols ← analysis.accepted.mapError .illTyped
  let program ← (generate analysis.tree symbols).mapError .generation
  pure ⟨analysis.tree, symbols, program⟩

end TinyCompiler
