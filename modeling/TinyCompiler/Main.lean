import TinyCompiler.CommandLine.Session

/-!
# The program

A session on the files and the input of the process, and what is said about the
arguments where there is no session.
-/

namespace TinyCompiler.CommandLine

/-- The number of a failure, which some calls of the system give negated. -/
def failureNumber (code : UInt32) : Nat :=
  (if code < 0x80000000 then code else 0 - code).toNat

/-- The failures of the system that a folder has too keep their meaning. -/
def fileError (error : IO.Error) : FileError :=
  match error with
  | .noFileOrDirectory _ _ _ => .noSuchFile
  | .inappropriateType _ code _ =>
      if failureNumber code = 21 then .isDirectory else .notDirectory
  | .invalidArgument _ code _ =>
      if failureNumber code = 36 then .nameTooLong else .other (toString error)
  | error => .other (toString error)

def processWorld : World IO where
  readFile path :=
    try
      let contents ← IO.FS.readBinFile path
      pure (.ok contents)
    catch error => pure (.error (fileError error))
  writeFile path text :=
    try
      IO.FS.writeFile path text
      pure (.ok ())
    catch error => pure (.error (fileError error))
  readInput := do
    (← IO.getStdin).readBinToEnd

def usage : String :=
  "Usage: tiny [OPTIONS] <FILE>\n"

def options : List (String × String) :=
  [("    --echo-source", "Echo the numbered source before compiling"),
    ("    --trace-scan", "Log every token the scanner produces"),
    ("    --trace-parse", "Log parsed statements and print the syntax tree"),
    ("    --trace-analyze",
      "Log symbol resolution and print the symbol table"),
    ("    --trace-code",
      "Log emitted instructions, backpatches and machine steps"),
    ("-o, --output <OUTPUT>",
      "Where to write the listing (defaults to `<stem>.tm`)"),
    ("    --no-code", "Stop after analysis without writing code"),
    ("    --run", "Execute the program, reading integers from stdin"),
    ("-h, --help", "Print help"),
    ("-V, --version", "Print version")]

/-- A line of the help, with the explanations in one column. -/
def helpLine (entry : String × String) : String :=
  s!"  {Text.alignLeft 23 entry.1}{entry.2}\n"

def help : String :=
  "Compiler for the TINY language\n\n" ++ usage ++
  "\nArguments:\n" ++
  "  <FILE>  Source file; `.tny` is appended when it has no extension\n" ++
  "\nOptions:\n" ++
  String.join (options.map helpLine)

/-- What is said about the arguments. -/
def advise : Invocation → IO Unit
  | .help => IO.print help
  | .misuse => IO.eprint usage
  | .session _ | .version => pure ()

end TinyCompiler.CommandLine

open TinyCompiler.CommandLine in
def main (arguments : List String) : IO UInt32 := do
  advise (invocation arguments)
  let report ← invoke processWorld arguments
  IO.print report.output
  IO.eprint report.errors
  pure report.exitCode.toUInt32
