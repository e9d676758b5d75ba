/-!
# Arguments of the command line

One source file, flags that may each be given once, and an option with a value.
The arguments are read from the left, and the first that is wrong, or asks for
the version or for help, decides.  Behind `--` every argument is a file.
-/

namespace TinyCompiler.CommandLine

inductive Flag where
  | echoSource
  | traceScan
  | traceParse
  | traceAnalyze
  | traceCode
  | noCode
  | run
  deriving DecidableEq, Repr

structure Request where
  file : String
  flags : List Flag
  output : Option String
  deriving DecidableEq, Repr

def Request.has (request : Request) (flag : Flag) : Bool :=
  request.flags.contains flag

inductive Invocation where
  | session (request : Request)
  | version
  | help
  | misuse
  deriving DecidableEq, Repr

structure Draft where
  file : Option String
  flags : List Flag
  output : Option String
  deriving DecidableEq, Repr

def flag? : String → Option Flag
  | "echo-source" => some .echoSource
  | "trace-scan" => some .traceScan
  | "trace-parse" => some .traceParse
  | "trace-analyze" => some .traceAnalyze
  | "trace-code" => some .traceCode
  | "no-code" => some .noCode
  | "run" => some .run
  | _ => none

namespace Draft

def empty : Draft where
  file := none
  flags := []
  output := none

/-- A second file and an empty one are wrong. -/
def withFile? (draft : Draft) (file : String) : Option Draft :=
  if draft.file.isSome || file = "" then none
  else some { draft with file := some file }

def withFlag? (draft : Draft) (flag : Flag) : Option Draft :=
  if draft.flags.contains flag then none
  else some { draft with flags := draft.flags ++ [flag] }

def withOutput? (draft : Draft) (output : String) : Option Draft :=
  if draft.output.isSome || output = "" then none
  else some { draft with output := some output }

/-- The file is the only argument that has to be there. -/
def invocation (draft : Draft) : Invocation :=
  match draft.file with
  | some file => .session ⟨file, draft.flags, draft.output⟩
  | none => .misuse

end Draft

/-- How an argument begins, apart from `--` alone. -/
inductive Shape where
  /-- `--name`, or `--name=value`. -/
  | long (name : String) (value : Option String)
  /-- `-`, a letter and what stands behind it. -/
  | short (letter : Char) (behind : List Char)
  | plain
  deriving DecidableEq, Repr

def shape (argument : String) : Shape :=
  match argument.toList with
  | '-' :: '-' :: rest =>
      let name := String.ofList (rest.takeWhile (· ≠ '='))
      match rest.dropWhile (· ≠ '=') with
      | [] => .long name none
      | _ :: value => .long name (some (String.ofList value))
  | '-' :: letter :: behind => .short letter behind
  | _ => .plain

/-- The value written directly behind a letter, with or without `=`. -/
def attachedValue? : List Char → Option String
  | [] => none
  | '=' :: value => some (String.ofList value)
  | value => some (String.ofList value)

/-- Every argument is a file. -/
def readFiles (draft : Draft) : List String → Invocation
  | [] => draft.invocation
  | file :: rest =>
      match draft.withFile? file with
      | some next => readFiles next rest
      | none => .misuse

def readArguments (draft : Draft) : List String → Invocation
  | [] => draft.invocation
  | "--" :: rest => readFiles draft rest
  | argument :: rest =>
      let goOn (next : Option Draft) : Invocation :=
        match next with
        | some next => readArguments next rest
        | none => .misuse
      match shape argument with
      | .plain => goOn (draft.withFile? argument)
      | .long "output" (some value) => goOn (draft.withOutput? value)
      | .long "output" none => readOutput draft rest
      | .long "version" none => .version
      | .long "help" none => .help
      | .long name none => goOn ((flag? name).bind draft.withFlag?)
      | .long _ (some _) => .misuse
      | .short 'o' behind =>
          match attachedValue? behind with
          | some value => goOn (draft.withOutput? value)
          | none => readOutput draft rest
      | .short 'V' _ => .version
      | .short 'h' _ => .help
      | .short _ _ => .misuse
where
  /-- The next argument is the output, unless it looks like an option. -/
  readOutput (draft : Draft) : List String → Invocation
    | [] => .misuse
    | value :: rest =>
        match shape value with
        | .plain =>
            match draft.withOutput? value with
            | some next => readArguments next rest
            | none => .misuse
        | _ => .misuse

def invocation (arguments : List String) : Invocation :=
  readArguments Draft.empty arguments

end TinyCompiler.CommandLine
