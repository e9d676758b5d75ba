import TinyCompiler.CommandLine.Session
import TinyCompiler.Proofs.CompiledPrograms

/-!
# What comes of a session

Without traces a session says what the compilation of its source under the name
of the source file gives, and writes and runs the program that it gives.  Each
phase of the session does the phase of the compilation, so that the session
stops where the compilation stops.
-/

namespace TinyCompiler

/-- What a session says of a compilation that fails. -/
def CompileError.report (source : String) : CompileError → CommandLine.Report
  | .rejected diagnostic => .failed (diagnostic.render source)
  | .illTyped diagnostics =>
      .failed (String.join
        (diagnostics.map fun diagnostic => diagnostic.render source))
  | .generation error => (CommandLine.Failure.generation error).report

namespace CommandLine

/-! ## Requests without traces -/

def Flag.traces : Flag → Bool
  | .traceScan | .traceParse | .traceAnalyze | .traceCode => true
  | .echoSource | .noCode | .run => false

namespace Request

def Untraced (request : Request) : Prop :=
  ∀ flag ∈ request.flags, flag.traces = false

/-- What a session says before it compiles. -/
def heading (request : Request) (source : String) : String :=
  "\nTINY COMPILATION: " ++ request.source ++ "\n" ++
    request.onFlag .echoSource fun _ => numberedLines source

/-- What a session says when it has written the listing. -/
def written (request : Request) : String :=
  "\nCode written to " ++ request.target ++ "\n"

variable {request : Request}

theorem Untraced.has_eq_false (huntraced : request.Untraced) (flag : Flag)
    (htraces : flag.traces = true) : request.has flag = false := by
  rw [has, List.contains_eq_mem, decide_eq_false_iff_not]
  intro hflag
  rw [huntraced flag hflag] at htraces
  cases htraces

theorem Untraced.onFlag_eq (huntraced : request.Untraced) (flag : Flag)
    (htraces : flag.traces = true) (text : Unit → String) :
    request.onFlag flag text = "" := by
  rw [onFlag, huntraced.has_eq_false flag htraces]
  rfl

end Request

namespace Report

@[simp] theorem silent_andThen (report : Report) :
    silent.andThen report = report := by
  simp [silent, andThen]

@[simp] theorem said_andThen_silent (text : String) :
    (said text).andThen silent = said text := by
  simp [said, silent, andThen]

theorem andThen_assoc (first second third : Report) :
    (first.andThen second).andThen third = first.andThen
    (second.andThen third) := by
  simp [andThen, String.append_assoc]

@[simp] theorem traced_empty : traced "" = silent := rfl

@[simp] theorem said_empty : said "" = silent := rfl

end Report

/-! ## The phases -/

/-- A session goes on with the result of a phase and says nothing, or it stops
with what there is to say of the error. -/
def Progress.of (source : String) : Except CompileError α → Progress α
  | .ok value => done .silent value
  | .error error => stopped (error.report source)

theorem Progress.next_done (report : Report) (value : α) (go : α → Progress β) :
    (done report value).next go =
    (report.andThen (go value).1, (go value).2) := rfl

@[simp] theorem Progress.next_silent (value : α) (go : α → Progress β) :
    (done .silent value).next go = go value := by
  rw [next_done, Report.silent_andThen]

theorem Progress.next_next (progress : Progress α) (first : α → Progress β)
    (second : β → Progress γ) :
    (progress.next first).next second = progress.next fun value =>
    (first value).next second := by
  rcases progress with ⟨report, _ | value⟩
  · rfl
  rcases hfirst : first value with ⟨later, _ | result⟩
  · simp [next, hfirst]
  · simp [next, hfirst, Report.andThen_assoc]

theorem Progress.of_bind (source : String) (first : Except CompileError α)
    (next : α → Except CompileError β) :
    of source (first >>= next) = (of source first).next fun value =>
      of source (next value) := by
  cases first with
  | error error => rfl
  | ok value =>
      exact (next_silent value fun value => of source (next value)).symm

section Phases

variable {request : Request} (huntraced : request.Untraced) (source : String)
include huntraced

theorem scan_eq :
    scan request source =
      .of source ((Scanner.tokenize source (some request.sourceName)).mapError
        .rejected) := by
  have htrace := huntraced.onFlag_eq .traceScan rfl
  simp only [scan, Scanner.tokenize, htrace, Report.traced_empty,
    Report.silent_andThen, Option.getD_some]
  rcases (Scanner.scan source).problem with _ | ⟨problem, line⟩
  · rfl
  · rfl

theorem parse_eq (tokens : List Token) :
    parse request source tokens =
      .of source ((Parser.parse tokens request.sourceName).mapError
        .ofStop) := by
  have htrace := huntraced.onFlag_eq .traceParse rfl
  have htree := huntraced.has_eq_false .traceParse rfl
  simp only [parse, Parser.parse, htrace, htree, Report.traced_empty,
    Report.silent_andThen]
  cases (Parser.run tokens request.sourceName).1 with
  | ok _ => rfl
  | error stop =>
      cases stop with
      | rejected diagnostic => rfl
      | misused fault => rfl

theorem check_eq (tree : Tree) :
    check request source tree = .of source (do
      let analysis ← (analyze tree request.sourceName).mapError .ofFault
      let symbols ← analysis.accepted.mapError .illTyped
      pure (analysis.tree, symbols)) := by
  have htrace := huntraced.onFlag_eq .traceAnalyze rfl
  simp only [check, htrace, Report.traced_empty, Report.said_empty,
    Report.silent_andThen]
  cases analyze tree request.sourceName with
  | error fault => rfl
  | ok analysis =>
      change _ = Progress.of source (analysis.accepted.mapError .illTyped >>= _)
      dsimp only
      cases analysis.accepted with
      | ok symbols => rfl
      | error diagnostics => rfl

theorem lower_eq (hcode : request.has .noCode = false) (tree : Tree)
    (symbols : SymbolTable) :
    lower request tree symbols =
      .of source ((generate tree symbols).mapError .generation) := by
  have htrace := huntraced.onFlag_eq .traceCode rfl
  simp only [lower, generate, hcode, htrace, Report.traced_empty,
    Report.silent_andThen]
  cases (generateWithHistory tree symbols).1 with
  | ok program => rfl
  | error error => rfl

end Phases

/-! ## Up to the program -/

/-- The compilation up to the generation. -/
def typedTree (source file : String) :
    Except CompileError (Tree × SymbolTable) := do
  let tokens ← (Scanner.tokenize source (some file)).mapError .rejected
  let tree ← (Parser.parse tokens file).mapError .ofStop
  let analysis ← (analyze tree file).mapError .ofFault
  let symbols ← analysis.accepted.mapError .illTyped
  pure (analysis.tree, symbols)

theorem compile_eq (source file : String) :
    compile source (some file) =
        typedTree source file >>= fun (tree, symbols) =>
      (generate tree symbols).mapError .generation >>= fun program =>
        .ok ⟨tree, symbols, program⟩ := by
  simp only [compile, typedTree, bind_assoc, Option.getD_some, pure_bind]
  rfl

theorem typedTree_of_compiled {source file : String} {compilation : Compilation}
    (hcompile : compile source (some file) = .ok compilation) :
    typedTree source file = .ok (compilation.tree, compilation.symbols) ∧
      generate compilation.tree compilation.symbols =
        .ok compilation.program := by
  rw [compile_eq] at hcompile
  obtain ⟨⟨tree, symbols⟩, htyped, hgenerated⟩ := except_bind_eq_ok.mp hcompile
  obtain ⟨program, hprogram, hdone⟩ := except_bind_eq_ok.mp hgenerated
  obtain rfl := Except.ok.inj hdone
  exact ⟨htyped, except_mapError_eq_ok.mp hprogram⟩

section Prepare

variable {request : Request} (huntraced : request.Untraced) (source : String)
include huntraced

theorem prepare_eq :
    prepare request source =
      (Progress.done (.said (request.heading source)) ()).next fun _ =>
        (Progress.of source (typedTree source request.sourceName)).next
          fun typed => lower request typed.1 typed.2 := by
  -- Taken apart, the compilation is the same chain of phases as the session.
  simp only [typedTree, Progress.of_bind, Progress.next_next]
  simp only [prepare, scan_eq huntraced, parse_eq huntraced, check_eq huntraced,
    Progress.of_bind, Progress.next_next]
  rfl

theorem prepare_of_compiled {compilation : Compilation}
    (hcompile : compile source (some request.sourceName) = .ok compilation) :
    prepare request source =
      if request.has .noCode then .stopped (.said (request.heading source))
      else .done (.said (request.heading source)) compilation.program := by
  obtain ⟨htyped, hgenerate⟩ := typedTree_of_compiled hcompile
  rw [prepare_eq huntraced, htyped, Progress.next_done, Progress.of,
    Progress.next_silent]
  cases hcode : request.has .noCode with
  | true => simp [lower, hcode, Progress.stopped]
  | false =>
      rw [lower_eq huntraced source hcode, hgenerate]
      simp [Progress.of, Progress.done, Except.mapError]

end Prepare

/-! ## Running the program -/

theorem decode_toUTF8 (source : String) :
    decode source.toUTF8 = .ok source := by
  simp [decode, String.fromUTF8?, String.fromUTF8, String.toUTF8,
    source.isValidUTF8]

theorem run_bind {σ α β : Type} (action : StateM σ α) (next : α → StateM σ β)
    (state : σ) :
    (action >>= next).run state = (next (action.run state).1).run
    (action.run state).2 := rfl

section Folder

variable {folder changed : Folder} {path text : String} {input : ByteArray}

theorem readFile_run :
    ((folderWorld input).readFile path).run folder =
    (folder.read path, folder) := rfl

theorem writeFile_run (hwrite : folder.write path text = .ok changed) :
    ((folderWorld input).writeFile path text).run folder =
    (.ok (), changed) := by
  have hget : StateT.run (get : StateM Folder Folder) folder =
    (folder, folder) := rfl
  simp only [folderWorld, run_bind, hget, hwrite]
  rfl

end Folder

section Session

variable {σ : Type} {world : World (StateM σ)} {request : Request}
  {source : String} {start before after : σ}

theorem deliver_run {program : Program}
    (hwrite : (world.writeFile request.target program.listing).run before =
      (.ok (), after)) :
    (deliver world request program).run before =
      if request.has .run then
        ((Report.said request.written).andThen
          (execute request program (world.readInput.run after).1),
            (world.readInput.run after).2)
      else (.said request.written, after) := by
  rw [deliver, run_bind, hwrite]
  cases hrun : request.has .run with
  | true => simp only [if_true, run_bind]; rfl
  | false => rfl

theorem session_run
    (hread : (world.readFile request.source).run start =
      (.ok source.toUTF8, before)) :
    (session world request).run start =
      match prepare request source with
      | (report, none) => (report, before)
      | (report, some program) =>
          let delivered := (deliver world request program).run before
          (report.andThen delivered.1, delivered.2) := by
  have hdecode :
      (Except.ok source.toUTF8 : Except FileError ByteArray).bind decode =
      .ok source := decode_toUTF8 source
  rw [session, run_bind, hread]
  dsimp only
  rw [hdecode]
  dsimp only
  rcases prepare request source with ⟨report, _ | program⟩
  · rfl
  · rfl

end Session

/-! ## The whole session -/

end CommandLine

end TinyCompiler
