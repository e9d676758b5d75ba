import Mathlib.Data.List.Nodup
import Mathlib.Data.List.Range
import TinyCompiler.Proofs.CompiledPrograms
import TinyCompiler.Proofs.DataArea
import TinyCompiler.Proofs.JumpStructure
import TinyCompiler.Proofs.MachineResources
import TinyCompiler.Proofs.Occurrences

/-!
# Programs without loops

A text has as many loops as words `repeat`.  Without one, every jump of the code
leads forward, so that no run comes to an address twice, and each ends within as
many steps as the program has instructions.
-/

namespace TinyCompiler

/-! ## Loops of a text -/

mutual

theorem Stmt.repeats_mapNote (change : α → β) :
    ∀ stmt : Stmt α, (stmt.mapNote change).repeats = stmt.repeats
  | .read _ _ | .assign _ _ _ | .write _ _ => rfl
  | .ifThen _ _ thenPart => Block.repeats_mapNote change thenPart
  | .ifElse _ _ thenPart elsePart => by
      simp only [Stmt.mapNote, Stmt.repeats,
        Block.repeats_mapNote change thenPart,
        Block.repeats_mapNote change elsePart]
  | .repeatUntil _ body _ => by
      simp only [Stmt.mapNote, Stmt.repeats, Block.repeats_mapNote change body]

theorem Block.repeats_mapNote (change : α → β) :
    ∀ block : Block α, (block.mapNote change).repeats = block.repeats
  | .nil => rfl
  | .cons first rest => by
      simp only [Block.mapNote, Block.repeats,
        Stmt.repeats_mapNote change first, Block.repeats_mapNote change rest]

end

/-- How many words `repeat` there are among tokens. -/
def Token.repeats (tokens : List Token) : Nat :=
  tokens.countP fun token => token.kind = .repeatWord

namespace Token

@[simp] theorem repeats_nil : repeats [] = 0 := rfl

@[simp] theorem repeats_append (tokens others : List Token) :
    repeats (tokens ++ others) = repeats tokens + repeats others :=
  List.countP_append

theorem repeats_eq_zero_iff {tokens : List Token} :
    repeats tokens = 0 ↔ ∀ token ∈ tokens, token.kind ≠ .repeatWord := by
  simp [repeats, List.countP_eq_zero]

end Token

namespace Grammar

theorem Terminal.repeats_cons {kinds : List Token.Kind}
    (terminal : Terminal kinds) (rest : List Token)
    (hkinds : .repeatWord ∉ kinds) :
    Token.repeats (terminal.token :: rest) = Token.repeats rest := by
  refine List.countP_cons_of_neg ?_
  rw [decide_eq_true_eq]
  exact fun hkind => hkinds (hkind ▸ terminal.kind_mem)

theorem Terminal.repeats_repeatWord (terminal : Terminal [.repeatWord])
    (rest : List Token) :
    Token.repeats (terminal.token :: rest) = Token.repeats rest + 1 :=
  List.countP_cons_of_pos (decide_eq_true terminal.kind_eq)

mutual

theorem Exp.repeats_tokens : ∀ exp : Exp, Token.repeats exp.tokens = 0
  | .mk left comparison => by
      simp [Exp.tokens, left.repeats_tokens, comparison.repeats_tokens]

theorem Comparison.repeats_tokens :
    ∀ comparison : Comparison, Token.repeats comparison.tokens = 0
  | .none => rfl
  | .some operator right => by
      rw [Comparison.tokens, operator.repeats_cons _ (by decide),
        right.repeats_tokens]

theorem SimpleExp.repeats_tokens :
    ∀ simple : SimpleExp, Token.repeats simple.tokens = 0
  | .mk first terms => by
      simp [SimpleExp.tokens, first.repeats_tokens, terms.repeats_tokens]

theorem Terms.repeats_tokens : ∀ terms : Terms, Token.repeats terms.tokens = 0
  | .nil => rfl
  | .cons operator next terms => by
      rw [Terms.tokens, operator.repeats_cons _ (by decide),
        Token.repeats_append, next.repeats_tokens, terms.repeats_tokens]

theorem Term.repeats_tokens : ∀ term : Term, Token.repeats term.tokens = 0
  | .mk first factors => by
      simp [Term.tokens, first.repeats_tokens, factors.repeats_tokens]

theorem Factors.repeats_tokens :
    ∀ factors : Factors, Token.repeats factors.tokens = 0
  | .nil => rfl
  | .cons operator next factors => by
      rw [Factors.tokens, operator.repeats_cons _ (by decide),
        Token.repeats_append, next.repeats_tokens, factors.repeats_tokens]

theorem Factor.repeats_tokens :
    ∀ factor : Factor, Token.repeats factor.tokens = 0
  | .group opening inner closing => by
      rw [Factor.tokens, opening.repeats_cons _ (by decide),
        Token.repeats_append, inner.repeats_tokens,
        closing.repeats_cons _ (by decide), Token.repeats_nil]
  | .number token => token.repeats_cons [] (by decide)
  | .identifier token => token.repeats_cons [] (by decide)

end

mutual

theorem Statement.repeats_tokens :
    ∀ statement : Statement,
      Token.repeats statement.tokens = statement.stmt.repeats
  | .ifThen ifWord test thenWord thenPart endWord => by
      rw [Statement.tokens, ifWord.repeats_cons _ (by decide),
        Token.repeats_append, test.repeats_tokens,
        thenWord.repeats_cons _ (by decide), Token.repeats_append,
        thenPart.repeats_tokens, endWord.repeats_cons _ (by decide)]
      simp [Statement.stmt, Stmt.repeats]
  | .ifElse ifWord test thenWord thenPart elseWord elsePart endWord => by
      rw [Statement.tokens, ifWord.repeats_cons _ (by decide),
        Token.repeats_append, test.repeats_tokens,
        thenWord.repeats_cons _ (by decide), Token.repeats_append,
        thenPart.repeats_tokens, elseWord.repeats_cons _ (by decide),
        Token.repeats_append, elsePart.repeats_tokens,
        endWord.repeats_cons _ (by decide)]
      simp [Statement.stmt, Stmt.repeats]
  | .repeatUntil repeatWord body untilWord test => by
      rw [Statement.tokens, repeatWord.repeats_repeatWord, Token.repeats_append,
        body.repeats_tokens, untilWord.repeats_cons _ (by decide),
        test.repeats_tokens]
      rfl
  | .assign target sign value => by
      rw [Statement.tokens, target.repeats_cons _ (by decide),
        sign.repeats_cons _ (by decide), value.repeats_tokens]
      rfl
  | .read readWord target => by
      rw [Statement.tokens, readWord.repeats_cons _ (by decide),
        target.repeats_cons _ (by decide)]
      rfl
  | .write writeWord value => by
      rw [Statement.tokens, writeWord.repeats_cons _ (by decide),
        value.repeats_tokens]
      rfl

theorem Sequence.repeats_tokens :
    ∀ sequence : Sequence,
      Token.repeats sequence.tokens = sequence.block.repeats
  | .mk first rest => by
      rw [Sequence.tokens, Token.repeats_append, first.repeats_tokens,
        rest.repeats_tokens]
      rfl

theorem Statements.repeats_tokens :
    ∀ statements : Statements,
      Token.repeats statements.tokens = statements.block.repeats
  | .nil => rfl
  | .cons semicolon next rest => by
      rw [Statements.tokens, semicolon.repeats_cons _ (by decide),
        Token.repeats_append, next.repeats_tokens, rest.repeats_tokens]
      rfl

end

end Grammar

theorem Parser.repeats_of_parse {tokens : List Token} {file : String}
    {tree : Tree} (hparse : parse tokens file = .ok tree) {program : Block Mark}
    (hprogram : tree.program = .ok program) :
    program.repeats = Token.repeats (programTokens tokens) := by
  obtain ⟨sequence, htokens, -, rfl⟩ := derivation_of_parse hparse
  obtain ⟨same, hsame, hlines⟩ := sequence.program_tree
  obtain rfl := Except.ok.inj (hprogram.symm.trans hsame)
  rw [← htokens, sequence.repeats_tokens, ← hlines, Block.repeats_mapNote]

/-! ## Jumps that lead forward -/

/-- Every jump leads to an address behind its own. -/
def Program.LeadsForward (program : Program) : Prop :=
  ∀ address instruction, program.get? address = some instruction →
    ∀ target ∈ instruction.targets, address < target

theorem mem_jumpsFrom {base index target : Nat} {code : List Instruction}
    {instruction : Instruction} (hinstruction : code[index]? = some instruction)
    (htarget : target ∈ instruction.targets) :
    (base + index, target) ∈ jumpsFrom base code := by
  refine List.mem_flatMap.mpr ⟨(instruction, base + index), ?_, ?_⟩
  · exact List.mk_add_mem_zipIdx_iff_getElem?.mpr hinstruction
  · exact List.mem_map_of_mem htarget

/-- Code that no jump leads back in. -/
theorem JumpsLaid.forward {base : Nat} {code : List Instruction}
    (hlaid : JumpsLaid base code 0) :
    ∀ jump ∈ jumpsFrom base code, jump.1 < jump.2 := by
  intro jump hjump
  have hnone := List.countP_eq_zero.mp hlaid.count jump hjump
  rw [isBackward, decide_eq_true_eq] at hnone
  have hmoves := hlaid.moves jump hjump
  omega

theorem Program.ofBlock_leadsForward (symbols : SymbolTable) {block : Block α}
    (hloopfree : block.repeats = 0) :
    (Program.ofBlock symbols block).LeadsForward := by
  intro address instruction hfetch target htarget
  have hlaid := block.jumpsLaid symbols.locate symbols.size 0
  rw [hloopfree] at hlaid
  have hcode : (block.code symbols.locate symbols.size 0 ++ [.halt])[address]? =
      some instruction := by
    rw [← hfetch, get?, ofBlock, List.getElem?_toArray]
  have hjump : (0 + address, target) ∈
      jumpsFrom 0 (block.code symbols.locate symbols.size 0 ++ [.halt]) :=
    mem_jumpsFrom hcode htarget
  -- `HALT` has no target, so every jump is one of the block.
  have hhalt :
      jumpsFrom 0 (block.code symbols.locate symbols.size 0 ++ [.halt]) =
      jumpsFrom 0 (block.code symbols.locate symbols.size 0) := by
    simp [Instruction.targets]
  rw [hhalt, Nat.zero_add] at hjump
  exact hlaid.forward _ hjump

/-! ## Runs that go forward -/

namespace Machine

variable {program : Program} {state next : State} {instruction : Instruction}

theorem State.counter_put {location : Nat} {value : Int32}
    (hnext : state.put location value = .next next) :
    next.counter = state.counter + 1 := by
  unfold put at hnext
  split at hnext
  · injection hnext with hnext
    rw [← hnext]
  · cases hnext

/-- Behind an instruction comes the next one or one to which it jumps. -/
theorem counter_execute (hnext : execute state instruction = .next next) :
    next.counter = state.counter + 1 ∨ next.counter ∈ instruction.targets := by
  cases instruction with
  | load location =>
      simp only [execute] at hnext
      split at hnext
      · injection hnext with hnext
        exact .inl (by rw [← hnext])
      · cases hnext
  | store location => exact .inl (State.counter_put hnext)
  | operate operator operand =>
      simp only [execute] at hnext
      split at hnext
      · cases hnext
      · split at hnext
        · injection hnext with hnext
          exact .inl (by rw [← hnext])
        · cases hnext
  | jump target =>
      injection hnext with hnext
      exact .inr (by simp [← hnext, Instruction.targets])
  | jumpIfZero target =>
      injection hnext with hnext
      rw [← hnext]
      by_cases hzero : state.accumulator = 0
      · exact .inr (by simp [hzero, Instruction.targets])
      · exact .inl (if_neg hzero)
  | read location =>
      cases hinputs : state.inputs with
      | nil => simp [execute, hinputs] at hnext
      | cons value rest =>
          simp only [execute, hinputs] at hnext
          have hcounter := State.counter_put hnext
          exact .inl hcounter
  | loadImmediate | write =>
      injection hnext with hnext
      exact .inl (by rw [← hnext])
  | halt => cases hnext

end Machine

section Forward

open Machine

variable {program : Program} {state : State}

theorem Program.LeadsForward.counter_lt {next : State}
    {instruction : Instruction} (hforward : program.LeadsForward)
    (hfetch : program.get? state.counter = some instruction)
    (hnext : execute state instruction = .next next) :
    state.counter < next.counter := by
  rcases counter_execute hnext with hbehind | htarget
  · omega
  · exact hforward _ _ hfetch _ htarget

namespace Machine

/-- Visits to ever higher addresses of a program. -/
structure Ascends (program : Program) (visits : Array Visit) : Prop where
  increasing : (visits.toList.map Visit.address).Pairwise (· < ·)
  within : ∀ visit ∈ visits.toList, visit.address < program.size

theorem Ascends.push {visits : Array Visit} (hascends : Ascends program visits)
    {visit : Visit}
    (hbefore : ∀ earlier ∈ visits.toList, earlier.address < visit.address)
    (hvisit : visit.address < program.size) :
    Ascends program (visits.push visit) := by
  constructor
  · rw [Array.toList_push, List.map_append, List.pairwise_append]
    refine ⟨hascends.increasing, List.pairwise_singleton _ _, ?_⟩
    intro address haddress last hlast
    obtain ⟨earlier, hearlier, rfl⟩ := List.mem_map.mp haddress
    obtain rfl := List.mem_singleton.mp hlast
    exact hbefore earlier hearlier
  · rw [Array.toList_push]
    exact List.forall_mem_append.mpr
      ⟨hascends.within, fun last hlast => List.mem_singleton.mp hlast ▸ hvisit⟩

/-- No address is visited twice. -/
theorem Ascends.size_le {visits : Array Visit}
    (hascends : Ascends program visits) :
    visits.size ≤ program.size := by
  have hnodup : (visits.toList.map Visit.address).Nodup :=
    hascends.increasing.imp Nat.ne_of_lt
  have hsubset : visits.toList.map Visit.address ⊆ List.range program.size := by
    intro address haddress
    obtain ⟨visit, hvisit, rfl⟩ := List.mem_map.mp haddress
    exact List.mem_range.mpr (hascends.within visit hvisit)
  have hlength := (hnodup.subperm hsubset).length_le
  rwa [List.length_map, Array.length_toList, List.length_range] at hlength

/-- A run of a program that leads forward ascends from where it is. -/
theorem visitsWithin_ascends (hforward : program.LeadsForward) (budget : Nat)
    (state : State) :
    Ascends program (visitsWithin program budget state #[]) := by
  refine visitsWithin_induction program
    (fun _ state seen => Ascends program seen ∧
      ∀ visit ∈ seen.toList, visit.address < state.counter)
    (Ascends program) ?stops ?ends ?goes ⟨⟨.nil, by simp⟩, by simp⟩
  case stops =>
    rintro budget state seen ⟨hascends, -⟩
    exact hascends
  case ends =>
    rintro budget state seen instruction ⟨hascends, hbefore⟩ hfetch
    exact hascends.push hbefore (Array.getElem?_eq_some_iff.mp hfetch).1
  case goes =>
    rintro budget state seen instruction next ⟨hascends, hbefore⟩ hfetch hnext
    have hcounter := hforward.counter_lt hfetch hnext
    refine ⟨hascends.push hbefore (Array.getElem?_eq_some_iff.mp hfetch).1, ?_⟩
    rw [Array.toList_push]
    refine List.forall_mem_append.mpr
      ⟨fun earlier hearlier => ?_, fun last hlast => ?_⟩
    · exact Nat.lt_trans (hbefore earlier hearlier) hcounter
    · obtain rfl := List.mem_singleton.mp hlast
      exact hcounter

/-- A closed program that leads forward comes to its end before it comes to its
size. -/
theorem runWithin_ne_exceeded (hclosed : program.Closed)
    (hforward : program.LeadsForward) (limit : Nat) {budget : Nat}
    (hfits : state.Fits program)
    (hbudget : program.size ≤ state.counter + budget) (other : Nat) :
    (runWithin program limit budget state).1 ≠ .error
    (.stepLimitExceeded other) := by
  -- Each step spends one of the budget and moves the counter up by one or more.
  induction budget generalizing state with
  | zero =>
      have hcounter := hfits.1
      omega
  | succ budget ih =>
      obtain ⟨instruction, hfetch⟩ : ∃ instruction,
          program.get? state.counter = some instruction :=
        ⟨_, Array.getElem?_eq_getElem hfits.1⟩
      have horderly := step_orderly hclosed hfits
      rw [step_eq_execute hfetch] at horderly
      rw [runWithin, step_eq_execute hfetch]
      cases hexecute : execute state instruction with
      | next next =>
          rw [hexecute] at horderly
          have hcounter := hforward.counter_lt hfetch hexecute
          exact ih horderly (by omega)
      | halted final => simp
      | failed fault final =>
          rw [hexecute] at horderly
          rintro ⟨⟩
          exact horderly

end Machine

end Forward

/-! ## Compiled texts -/

theorem compiled_leadsForward {source : String} {file : Option String}
    {compilation : Compilation} {tokens : List Token}
    (hcompile : compile source file = .ok compilation)
    (hscan : Scanner.tokenize source (some (file.getD inputFile)) = .ok tokens)
    (hloopfree : ∀ token ∈ tokens, token.kind ≠ .repeatWord) :
    compilation.program.Closed ∧ compilation.program.LeadsForward := by
  obtain ⟨scanned, tree, block, hscanned, hparse, hblock, -, hprogram⟩ :=
    compile_eq_ok hcompile
  obtain rfl := Except.ok.inj (hscan.symm.trans hscanned)
  have hbefore : ∀ token ∈ Parser.programTokens tokens,
      token.kind ≠ .repeatWord :=
    fun token htoken => hloopfree token (List.takeWhile_subset _ htoken)
  have hrepeats : block.repeats = 0 :=
    (Parser.repeats_of_parse hparse hblock).trans
    (Token.repeats_eq_zero_iff.mpr hbefore)
  have hlocated : ∀ name ∈ block.names,
      block.symbols.locate name < block.symbols.size :=
    fun name hname => block.mem_map_locate_iff.mp (List.mem_map_of_mem hname)
  rw [hprogram]
  exact ⟨Program.ofBlock_closed hlocated,
    Program.ofBlock_leadsForward block.symbols hrepeats⟩

/-- A run of the program of a text without `repeat` comes only to ever higher
addresses, so that it executes no instruction twice.  It ends by itself under a
limit of as many steps as the program has instructions. -/
theorem loop_free_text_runs_forward (source : String) (file : Option String)
    (compilation : Compilation) (tokens : List Token)
    (hcompile : compile source file = .ok compilation)
    (hscan : Scanner.tokenize source (some (file.getD inputFile)) = .ok tokens)
    (hloopfree : ∀ token ∈ tokens, token.kind ≠ .repeatWord) (machine : Machine)
    (hmachine : machine.program = compilation.program) (inputs : List Int32) :
    ((machine.visits inputs).toList.map Machine.Visit.address).Pairwise
    (· < ·) ∧
      (machine.visits inputs).size ≤ compilation.program.size ∧
      (compilation.program.size ≤ machine.stepLimit →
        ∀ limit, (machine.run inputs).1 ≠
          .error (.stepLimitExceeded limit)) := by
  obtain ⟨hclosed, hforward⟩ := compiled_leadsForward hcompile hscan hloopfree
  rw [← hmachine] at hclosed hforward ⊢
  have hascends := Machine.visitsWithin_ascends hforward machine.stepLimit
    (machine.reset inputs)
  refine ⟨hascends.increasing, hascends.size_le, fun hlimit limit => ?_⟩
  rw [Machine.run_result]
  refine Machine.runWithin_ne_exceeded hclosed hforward
    machine.stepLimit ?_ ?_ limit
  · exact Machine.State.start_fits hclosed inputs
  · exact Nat.le_add_left_of_le hlimit

def forkedWrite : String :=
  "if 1 < 2 then write 1 else write 2 end"

def forkedWriteTokens : List Token :=
  [⟨.ifWord, "if", 1⟩, ⟨.number, "1", 1⟩, ⟨.less, "<", 1⟩, ⟨.number, "2", 1⟩,
    ⟨.thenWord, "then", 1⟩, ⟨.writeWord, "write", 1⟩, ⟨.number, "1", 1⟩,
    ⟨.elseWord, "else", 1⟩, ⟨.writeWord, "write", 1⟩, ⟨.number, "2", 1⟩,
    ⟨.endWord, "end", 1⟩, Token.endOfInput 1]

theorem branch_runs_forward :
    ∃ compilation, compile forkedWrite none = .ok compilation ∧
      compilation.program.size = 9 ∧
      ∀ inputs, ((Machine.start compilation.program 9).visits inputs).size ≤ 9 ∧
        ∀ limit, ((Machine.start compilation.program 9).run inputs).1 ≠
          .error (.stepLimitExceeded limit) := by
  have hscan : Scanner.tokenize forkedWrite (some inputFile) =
      .ok forkedWriteTokens := by
    with_unfolding_all rfl
  have hsize : (compile forkedWrite none).map
      (fun compilation => compilation.program.size) = .ok 9 := by
    rw [compile, Option.getD_none, hscan]
    decide +kernel
  obtain ⟨compilation, hcompile, hprogram⟩ := except_map_eq_ok.mp hsize
  refine ⟨compilation, hcompile, hprogram, fun inputs => ?_⟩
  obtain ⟨-, hvisits, hends⟩ :=
    loop_free_text_runs_forward _ none compilation _ hcompile hscan
    (by decide) (Machine.start compilation.program 9) rfl inputs
  rw [hprogram] at hvisits hends
  exact ⟨hvisits, hends (Nat.le_refl 9)⟩

end TinyCompiler
