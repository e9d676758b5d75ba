import TinyCompiler.CommandLine.Arguments
import TinyCompiler.CommandLine.FilePath
import TinyCompiler.CommandLine.Folder
import TinyCompiler.CommandLine.Trace
import TinyCompiler.Compilation
import TinyCompiler.Text.Layout
import TinyCompiler.Tree.Listing

/-!
# Sessions

A session compiles one file as the arguments ask: it reads the source, reports
what is wrong with it or writes the listing of its program, and runs the program
if asked to.  A session reaches files and input through a `World`, so that it is
the same on a folder in memory and on a real one.
-/

namespace TinyCompiler.CommandLine

structure Report where
  exitCode : Nat
  output : String
  errors : String
  deriving DecidableEq, Repr

namespace Report

def failureCode : Nat := 1

def misuseCode : Nat := 2

def andThen (first second : Report) : Report where
  exitCode := second.exitCode
  output := first.output ++ second.output
  errors := first.errors ++ second.errors

def said (text : String) : Report := ⟨0, text, ""⟩

def traced (text : String) : Report := ⟨0, "", text⟩

def silent : Report := ⟨0, "", ""⟩

def failed (errors : String) : Report := ⟨failureCode, "", errors⟩

def misused : Report := ⟨misuseCode, "", ""⟩

end Report

/-- Why a session cannot go on, apart from what is wrong with the source. -/
inductive Failure where
  | reading (path : String) (error : FileError)
  | writing (path : String) (error : FileError)
  | readingInput (error : FileError)
  | badInput (word : String) (error : Text.IntegerError)
  | malformed (fault : Tree.Fault)
  | generation (error : GenerationError)
  | execution (fault : Machine.Fault)
  deriving DecidableEq, Repr

namespace Failure

def context : Failure → String
  | .reading path _ => "failed to read " ++ path
  | .writing path _ => "failed to write " ++ path
  | .readingInput _ => "failed to read program input"
  | .badInput word _ => "input " ++ Text.quoted word ++ " is not an integer"
  | .malformed fault => fault.message?.getD "malformed tree"
  | .generation error => error.message
  | .execution fault => fault.message

def cause? : Failure → Option String
  | .reading _ error | .writing _ error | .readingInput error =>
      some error.message
  | .badInput _ error => some error.message
  | .malformed _ | .generation _ | .execution _ => none

def report (failure : Failure) : Report :=
  match failure.cause? with
  | none => .failed ("Error: " ++ failure.context ++ "\n")
  | some cause =>
      .failed ("Error: " ++ failure.context ++ "\n\nCaused by:\n    " ++
        cause ++ "\n")

end Failure

/-- What a session needs from outside. -/
structure World (m : Type → Type) where
  readFile : String → m (Except FileError ByteArray)
  writeFile : String → String → m (Except FileError Unit)
  readInput : m ByteArray

namespace Request

/-- The source file; a name without an extension gets the one of the
language. -/
def source (request : Request) : String :=
  if FilePath.hasExtension request.file then request.file
  else FilePath.withExtension request.file "tny"

def target (request : Request) : String :=
  request.output.getD (FilePath.withExtension request.source "tm")

def sourceName (request : Request) : String :=
  (FilePath.name? request.source).getD request.source

/-- A text that is there only if a flag is. -/
def onFlag (request : Request) (flag : Flag) (text : Unit → String) : String :=
  if request.has flag then text () else ""

end Request

def numberedLines (source : String) : String :=
  String.join ((Text.lines source.toList).mapIdx fun index line =>
    Text.alignRight 4 (toString (index + 1)) ++ ": " ++
      String.ofList line ++ "\n")

def decode (contents : ByteArray) : Except FileError String :=
  match String.fromUTF8? contents with
  | some text => .ok text
  | none => .error .invalidText

/-- How far a session has come: what there is to say, and what to go on with. -/
abbrev Progress (α : Type) := Report × Option α

namespace Progress

/-- Goes on with what there is, if there is something. -/
def next (progress : Progress α) (go : α → Progress β) : Progress β :=
  match progress with
  | (report, none) => (report, none)
  | (report, some value) =>
      let (later, result) := go value
      (report.andThen later, result)

def done (report : Report) (value : α) : Progress α :=
  (report, some value)

def stopped (report : Report) : Progress α :=
  (report, none)

end Progress

open Progress

def scan (request : Request) (source : String) : Progress (List Token) :=
  let scanned := Scanner.scan source
  let trace :=
    Report.traced
      (request.onFlag .traceScan fun _ => Trace.tokens scanned.tokens)
  match scanned.problem with
  | none => done trace scanned.tokens
  | some (problem, line) =>
      let diagnostic : Diagnostic := ⟨problem, line, request.sourceName⟩
      stopped (trace.andThen (.failed (diagnostic.render source)))

def parse (request : Request) (source : String) (tokens : List Token) :
    Progress Tree :=
  let (result, parser) := Parser.run tokens request.sourceName
  let trace :=
    Report.traced
      (request.onFlag .traceParse fun _ => Trace.statements parser.tree)
  match result with
  | .error (.rejected diagnostic) =>
      stopped (trace.andThen (.failed (diagnostic.render source)))
  | .error (.misused fault) =>
      stopped (trace.andThen (Failure.malformed fault).report)
  | .ok () =>
      if request.has .traceParse then
        match parser.tree.listing with
        | .error fault =>
            stopped (trace.andThen (Failure.malformed fault).report)
        | .ok listing =>
            done (trace.andThen (.said ("\nSyntax tree:\n" ++ listing)))
              parser.tree
      else done trace parser.tree

def check (request : Request) (source : String) (tree : Tree) :
    Progress (Tree × SymbolTable) :=
  match analyze tree request.sourceName with
  | .error fault => stopped (Failure.malformed fault).report
  | .ok analysis =>
      let trace :=
        Report.traced
          (request.onFlag .traceAnalyze fun _ => Trace.analysis analysis)
      let shown := Report.said (request.onFlag .traceAnalyze fun _ =>
        "\nSymbol table:\n\n" ++ analysis.symbols.listing)
      match analysis.accepted with
      | .ok symbols => done (trace.andThen shown) (analysis.tree, symbols)
      | .error diagnostics =>
          let errors :=
            String.join (diagnostics.map fun diagnostic =>
              diagnostic.render source)
          stopped ((trace.andThen shown).andThen (.failed errors))

def lower (request : Request) (tree : Tree) (symbols : SymbolTable) :
    Progress Program :=
  if request.has .noCode then stopped .silent
  else
    let (result, history) := generateWithHistory tree symbols
    let trace :=
      Report.traced
        (request.onFlag .traceCode fun _ => Trace.generation history)
    match result with
    | .error error => stopped (trace.andThen (Failure.generation error).report)
    | .ok program =>
        let finished :=
          request.onFlag .traceCode fun _ => Trace.generated program
        done (trace.andThen (.traced finished)) program

/-- Everything between reading the source and writing the listing. -/
def prepare (request : Request) (source : String) : Progress Program :=
  let opening := "\nTINY COMPILATION: " ++ request.source ++ "\n" ++
    request.onFlag .echoSource fun _ => numberedLines source
  (done (.said opening) source).next fun source =>
    (scan request source).next fun tokens =>
      (parse request source tokens).next fun tree =>
        (check request source tree).next fun (tree, symbols) =>
          lower request tree symbols

/-- The integers that a text is made up of, between white space. -/
def readIntegers : List (List Char) → Except Failure (List Int32)
  | [] => .ok []
  | word :: rest =>
      match Text.readInt32 word with
      | .error error => .error (.badInput (String.ofList word) error)
      | .ok value => (readIntegers rest).map (value :: ·)

def inputs (contents : ByteArray) : Except Failure (List Int32) :=
  match decode contents with
  | .error error => .error (.readingInput error)
  | .ok text => readIntegers (Text.words text.toList)

def execute (request : Request) (program : Program) (input : ByteArray) :
    Report :=
  match inputs input with
  | .error failure => failure.report
  | .ok values =>
      let machine := Machine.start program Machine.defaultStepLimit
      let trace := Report.traced (request.onFlag .traceCode fun _ =>
        Trace.execution (machine.visits values))
      match (machine.run values).1 with
      | .error fault => trace.andThen (Failure.execution fault).report
      | .ok outputs =>
          trace.andThen (.said (String.join (outputs.map fun value =>
            Text.writeInt32 value ++ "\n")))

variable {m : Type → Type} [Monad m]

def deliver (world : World m) (request : Request) (program : Program) :
    m Report := do
  match ← world.writeFile request.target program.listing with
  | .error error => pure (Failure.writing request.target error).report
  | .ok () =>
      let written :=
        Report.said ("\nCode written to " ++ request.target ++ "\n")
      if request.has .run then do
        let input ← world.readInput
        pure (written.andThen (execute request program input))
      else pure written

def session (world : World m) (request : Request) : m Report := do
  let contents ← world.readFile request.source
  match contents.bind decode with
  | .error error => pure (Failure.reading request.source error).report
  | .ok source =>
      match prepare request source with
      | (report, none) => pure report
      | (report, some program) => do
          let delivered ← deliver world request program
          pure (report.andThen delivered)

/-- What is said about the arguments themselves is left to the outer program. -/
def invoke (world : World m) (arguments : List String) : m Report :=
  match invocation arguments with
  | .session request => session world request
  | .version => pure (.said "tiny 0.1.0\n")
  | .help => pure .silent
  | .misuse => pure .misused

/-- The world of a folder in memory with a given input. -/
def folderWorld (input : ByteArray) : World (StateM Folder) where
  readFile path := do
    let folder ← get
    pure (folder.read path)
  writeFile path text := do
    let folder ← get
    match folder.write path text with
    | .error error => pure (.error error)
    | .ok changed => do
        set changed
        pure (.ok ())
  readInput := pure input

/-- A call on a folder in memory: what is said, and the folder afterwards. -/
def runInFolder (arguments : List String) (folder : Folder)
    (input : ByteArray) :
    Report × Folder :=
  (invoke (folderWorld input) arguments).run folder

end TinyCompiler.CommandLine
