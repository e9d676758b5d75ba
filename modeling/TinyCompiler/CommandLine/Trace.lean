import TinyCompiler.Analysis
import TinyCompiler.Generator.Basic
import TinyCompiler.Machine
import TinyCompiler.Token

/-!
# Traces

What the phases of a session did, one line for each event: its level, its text,
and its fields.
-/

namespace TinyCompiler.Trace

def detail (text : String) : String :=
  "TRACE " ++ text ++ "\n"

def note (text : String) : String :=
  "DEBUG " ++ text ++ "\n"

def numberField (name : String) (value : Nat) : String :=
  " " ++ name ++ "=" ++ toString value

def tokens (scanned : List Token) : String :=
  String.join (scanned.map fun token =>
    detail (token.describe ++ numberField "line" token.line))

/-- The statements of a tree in the order in which they were completed. -/
def statements (tree : Tree) : String :=
  String.join ((tree.nodes.toList.filter Node.isStatement).map fun node =>
    note ("parsed statement" ++ numberField "line" node.line))

def occurrence (verb name : String) (line location : Nat) : String :=
  note ("symbol " ++ verb ++ " name=" ++ Text.quoted name ++
    numberField "line" line ++
    numberField "location" location)

/-- The findings of an analysis, from where a symbol table has been built. -/
def findings (table : SymbolTable) : List Finding → String
  | [] => ""
  | .occurrence name line :: rest =>
      let (location, after) := table.resolve name line
      let verb := if (table.location? name).isSome then "referenced"
        else "inserted"
      occurrence verb name line location ++ findings after rest
  | .mistake error line :: rest =>
      note ("type error at line " ++ toString line ++ ": " ++ error.message) ++
        findings table rest

def analysis (analysis : Analysis) : String :=
  findings SymbolTable.empty analysis.findings ++
    note ("analysis finished" ++ numberField "symbols" analysis.symbols.size ++
      numberField "diagnostics" analysis.diagnostics.length)

def event : Generator.Event → String
  | .emitted address instruction =>
      detail ("emit" ++ numberField "address" address ++ " instruction=" ++
        instruction.text)
  | .patched address target =>
      note ("backpatched jump" ++ numberField "address" address ++
        numberField "target" target)

def generation (history : Array Generator.Event) : String :=
  String.join (history.toList.map event)

def generated (program : Program) : String :=
  note ("code generation finished" ++ numberField "instructions" program.size ++
    numberField "memory_size" program.memorySize)

def visit (visit : Machine.Visit) : String :=
  detail ("step" ++ numberField "address" visit.address ++
    " instruction=" ++ visit.instruction.text ++
    " accumulator=" ++ Text.writeInt32 visit.accumulator)

def execution (visits : Array Machine.Visit) : String :=
  visits.foldl (fun lines step => lines ++ visit step) ""

end TinyCompiler.Trace
