import TinyCompiler.Machine
import TinyCompiler.Proofs.AnalyzedGeneration
import TinyCompiler.Proofs.CodeLocations

/-!
# Safety of generated code

A program is closed if its locations lie in its memory, its jumps lead to its
instructions, and it ends with a `HALT`.  Running a closed program never leaves
the memory or the program.  Every generated program is closed, whatever symbol
table and types it was generated with.
-/

namespace TinyCompiler

namespace Instruction

/-- The addresses to which an instruction can jump. -/
def targets : Instruction → List Nat
  | .jump target | .jumpIfZero target => [target]
  | _ => []

end Instruction

structure Program.Closed (program : Program) : Prop where
  locations : ∀ instruction ∈ program.code.toList,
    ∀ location ∈ instruction.locations,
    location < program.memorySize
  targets : ∀ instruction ∈ program.code.toList, ∀ target ∈ instruction.targets,
    target < program.size
  ends : ∃ body, program.code.toList = body ++ [.halt]

/-! ## Jump targets of the layout -/

/-- Every jump of the code leads to an address in a range, its end included. -/
def TargetsWithin (low high : Nat) (code : List Instruction) : Prop :=
  ∀ instruction ∈ code, ∀ target ∈ instruction.targets,
    low ≤ target ∧ target ≤ high

section TargetsWithin

variable {low high smaller larger : Nat} {first second : List Instruction}
  {instruction : Instruction}

theorem TargetsWithin.mono (hwithin : TargetsWithin low high first)
    (hlow : smaller ≤ low) (hhigh : high ≤ larger) :
    TargetsWithin smaller larger first := by
  intro instruction hmem target htarget
  obtain ⟨hlower, hupper⟩ := hwithin instruction hmem target htarget
  exact ⟨Nat.le_trans hlow hlower, Nat.le_trans hupper hhigh⟩

@[simp] theorem targetsWithin_nil : TargetsWithin low high [] := by
  simp [TargetsWithin]

@[simp] theorem targetsWithin_append :
    TargetsWithin low high (first ++ second) ↔
      TargetsWithin low high first ∧ TargetsWithin low high second := by
  unfold TargetsWithin
  exact List.forall_mem_append

@[simp] theorem targetsWithin_cons :
    TargetsWithin low high (instruction :: first) ↔
      (∀ target ∈ instruction.targets, low ≤ target ∧ target ≤ high) ∧
        TargetsWithin low high first := by
  simp only [TargetsWithin, List.forall_mem_cons]

end TargetsWithin

theorem Expr.targetsWithin (locate : String → Nat) (expr : Expr α)
    (scratch low high : Nat) :
    TargetsWithin low high (expr.code locate scratch) := by
  induction expr generalizing scratch with
  | const note value => simp [Expr.code, Instruction.targets]
  | var note name => simp [Expr.code, Instruction.targets]
  | op note operator left right ihLeft ihRight =>
      have hleft := ihLeft scratch
      have hright := ihRight (scratch + 1)
      cases right <;>
        simp [Expr.code, Expr.operandCode, Instruction.targets,
          hleft] at hright ⊢
      exact hright

section Targets

variable (locate : String → Nat) (scratch : Nat)

mutual

theorem Stmt.targetsWithin : ∀ (stmt : Stmt α) (base : Nat),
    TargetsWithin base (base + (stmt.code locate scratch base).length)
      (stmt.code locate scratch base)
  | .read note name, base => by simp [Stmt.code, Instruction.targets]
  | .assign note name value, base => by
      simp [Stmt.code, Expr.targetsWithin, Instruction.targets]
  | .write note value, base => by
      simp [Stmt.code, Expr.targetsWithin, Instruction.targets]
  | .ifThen note test thenPart, base => by
      have hthen := Block.targetsWithin thenPart
        (base + (test.code locate scratch).length + 1)
      simp only [Stmt.code, branchCode, targetsWithin_append,
        targetsWithin_cons, Instruction.targets, List.mem_singleton, forall_eq,
        List.length_append,
        List.length_cons]
      refine ⟨test.targetsWithin locate scratch _ _, ⟨by omega, by omega⟩, ?_⟩
      exact hthen.mono (by omega) (by omega)
  | .ifElse note test thenPart elsePart, base => by
      have hthen := Block.targetsWithin thenPart
        (base + (test.code locate scratch).length + 1)
      have helse := Block.targetsWithin elsePart
        (base + (test.code locate scratch).length + 1 +
          (thenPart.code locate scratch
            (base + (test.code locate scratch).length + 1)).length + 1)
      simp only [Stmt.code, choiceCode, targetsWithin_append,
        targetsWithin_cons, Instruction.targets, List.mem_singleton, forall_eq,
        List.length_append,
        List.length_cons]
      refine ⟨test.targetsWithin locate scratch _ _, ⟨by omega, by omega⟩,
        hthen.mono (by omega) (by omega), ⟨by omega, by omega⟩, ?_⟩
      exact helse.mono (by omega) (by omega)
  | .repeatUntil note body test, base => by
      have hbody := Block.targetsWithin body base
      simp only [Stmt.code, targetsWithin_append, targetsWithin_cons,
        Instruction.targets, List.mem_singleton, forall_eq, targetsWithin_nil,
        and_true, List.length_append,
        List.length_cons, List.length_nil]
      refine ⟨hbody.mono (by omega) (by omega),
        test.targetsWithin locate scratch _ _, by omega, by omega⟩

theorem Block.targetsWithin : ∀ (block : Block α) (base : Nat),
    TargetsWithin base (base + (block.code locate scratch base).length)
      (block.code locate scratch base)
  | .nil, base => by simp [Block.code]
  | .cons first rest, base => by
      have hfirst := Stmt.targetsWithin first base
      have hrest := Block.targetsWithin rest
        (base + (first.code locate scratch base).length)
      simp only [Block.code, targetsWithin_append, List.length_append]
      exact ⟨hfirst.mono (by omega) (by omega),
        hrest.mono (by omega) (by omega)⟩

end

end Targets

theorem Program.ofBlock_closed {symbols : SymbolTable} {block : Block α}
    (hnames : ∀ name ∈ block.names, symbols.locate name < symbols.size) :
    (Program.ofBlock symbols block).Closed := by
  have hoccupies := Program.ofBlock_occupies symbols block
  have htargets := block.targetsWithin symbols.locate symbols.size 0
  constructor
  · intro instruction hmem location hlocation
    rcases (hoccupies location).mp ⟨instruction, hmem, hlocation⟩
      with hgiven | ⟨-, hscratch⟩
    · obtain ⟨name, hname, rfl⟩ := List.mem_map.mp hgiven
      exact Nat.lt_add_right _ (hnames name hname)
    · exact hscratch
  · intro instruction hmem target htarget
    rcases List.mem_append.mp hmem with hbody | hend
    · have hhigh := (htargets instruction hbody target htarget).2
      simp only [Program.size, Program.ofBlock, List.size_toArray,
        List.length_append, List.length_singleton]
      omega
    · obtain rfl := List.mem_singleton.mp hend
      simp [Instruction.targets] at htarget
  · exact ⟨_, rfl⟩

/-! ## Running a closed program -/

namespace Machine

/-- The state belongs to a run of the program: the next instruction exists and
the memory has the size that the program asks for. -/
def State.Fits (program : Program) (state : State) : Prop :=
  state.counter < program.size ∧ state.memory.size = program.memorySize

/-- The ways in which a run may end when nothing is out of range. -/
def Orderly (limit : Nat) (result : Except Fault (List Int32)) : Prop :=
  (∃ outputs, result = .ok outputs) ∨
    (∃ address, result = .error (.divisionByZero address)) ∨
    (∃ address, result = .error (.inputExhausted address)) ∨
      result = .error (.stepLimitExceeded limit)

/-- What one step may lead to when nothing is out of range. -/
def OrderlyStep (program : Program) : Outcome → Prop
  | .next state => state.Fits program
  | .halted _ => True
  | .failed (.divisionByZero _) _ => True
  | .failed (.inputExhausted _) _ => True
  | .failed _ _ => False

theorem State.operand_exists (state : State) (operand : Operand)
    (hlocations : ∀ location ∈ operand.locations,
      location < state.memory.size) :
    ∃ value, state.operand operand = .ok value := by
  cases operand with
  | immediate value => exact ⟨value, rfl⟩
  | memory location =>
      have hlt := hlocations location (by simp [Operand.locations])
      exact ⟨state.memory[location], by simp [State.operand, hlt]⟩

theorem State.accumulate_orderly {program : Program} {state : State}
    (value : Int32) (hfits : state.Fits program)
    (hnext : state.counter + 1 < program.size) :
    OrderlyStep program (state.accumulate value) :=
  ⟨hnext, hfits.2⟩

theorem State.put_orderly {program : Program} (state : State) {location : Nat}
    (value : Int32) (hfits : state.Fits program)
    (hnext : state.counter + 1 < program.size)
    (hlocation : location < state.memory.size) :
    OrderlyStep program (state.put location value) := by
  unfold State.put
  rw [if_pos hlocation]
  exact ⟨hnext, by simpa using hfits.2⟩

theorem execute_orderly {program : Program} {state : State}
    {instruction : Instruction} (hfits : state.Fits program)
    (hlocations : ∀ location ∈ instruction.locations,
      location < state.memory.size)
    (htargets : ∀ target ∈ instruction.targets, target < program.size)
    (hnext : instruction ≠ .halt → state.counter + 1 < program.size) :
    OrderlyStep program (execute state instruction) := by
  cases instruction with
  | loadImmediate value =>
      exact state.accumulate_orderly value hfits (hnext (by simp))
  | load location =>
      obtain ⟨value, hvalue⟩ :=
        state.operand_exists (.memory location) hlocations
      simp only [execute, hvalue]
      exact state.accumulate_orderly value hfits (hnext (by simp))
  | store location =>
      exact state.put_orderly _ hfits (hnext (by simp))
        (hlocations location (by simp [Instruction.locations]))
  | operate operator operand =>
      obtain ⟨value, hvalue⟩ := state.operand_exists operand hlocations
      simp only [execute, hvalue]
      cases hresult : operator.result? state.accumulator value with
      | none => trivial
      | some result =>
          exact state.accumulate_orderly result hfits (hnext (by simp))
  | jump target =>
      exact ⟨htargets target (by simp [Instruction.targets]), hfits.2⟩
  | jumpIfZero target =>
      have htarget := htargets target (by simp [Instruction.targets])
      have hafter := hnext (by simp)
      refine ⟨?_, hfits.2⟩
      by_cases hzero : state.accumulator = 0 <;> simp [hzero, htarget, hafter]
  | read location =>
      have hlocation := hlocations location (by simp [Instruction.locations])
      cases hinputs : state.inputs with
      | nil => simp [execute, hinputs, OrderlyStep]
      | cons value rest =>
          simp only [execute, hinputs]
          exact State.put_orderly { state with inputs := rest } value hfits
            (hnext (by simp)) hlocation
  | write => exact ⟨hnext (by simp), hfits.2⟩
  | halt => trivial

theorem step_orderly {program : Program} (hclosed : program.Closed)
    {state : State} (hfits : state.Fits program) :
    OrderlyStep program (step program state) := by
  obtain ⟨instruction, hfetch⟩ : ∃ instruction,
      program.get? state.counter = some instruction :=
    ⟨_, Array.getElem?_eq_getElem hfits.1⟩
  have hget : program.code.toList[state.counter]? = some instruction := by
    rw [Array.getElem?_toList]
    exact hfetch
  have hmem : instruction ∈ program.code.toList := List.mem_of_getElem? hget
  unfold step
  rw [hfetch]
  refine execute_orderly hfits ?_ (hclosed.targets _ hmem) ?_
  · rw [hfits.2]
    exact hclosed.locations _ hmem
  · -- Only the last instruction has none behind it, and that one is a `HALT`.
    intro hne
    obtain ⟨body, hbody⟩ := hclosed.ends
    have hsize : program.size = body.length + 1 := by
      simpa [Program.size] using congrArg List.length hbody
    have hcounter : state.counter ≠ body.length := by
      intro hlast
      rw [hbody, hlast] at hget
      exact hne (by simpa using hget.symm)
    have hlt := hfits.1
    omega

theorem runWithin_orderly {program : Program} (hclosed : program.Closed)
    (limit budget : Nat) {state : State} (hfits : state.Fits program) :
    Orderly limit (runWithin program limit budget state).1 := by
  induction budget generalizing state with
  | zero => exact .inr (.inr (.inr rfl))
  | succ budget ih =>
      have hstep := step_orderly hclosed hfits
      unfold runWithin
      generalize step program state = outcome at hstep
      cases outcome with
      | next next => exact ih hstep
      | halted final => exact .inl ⟨_, rfl⟩
      | failed fault final =>
          cases fault with
          | divisionByZero address => exact .inr (.inl ⟨address, rfl⟩)
          | inputExhausted address => exact .inr (.inr (.inl ⟨address, rfl⟩))
          | addressOutOfRange | memoryOutOfRange | stepLimitExceeded =>
              exact hstep.elim

theorem State.start_fits {program : Program} (hclosed : program.Closed)
    (inputs : List Int32) :
    (State.start program.memorySize inputs).Fits program := by
  obtain ⟨body, hbody⟩ := hclosed.ends
  have hsize : program.size = body.length + 1 := by
    simpa [Program.size] using congrArg List.length hbody
  exact ⟨by rw [hsize]; exact Nat.succ_pos _, Array.size_replicate⟩

theorem run_orderly {program : Program} (hclosed : program.Closed) (limit : Nat)
    (inputs : List Int32) :
    Orderly limit ((Machine.start program limit).run inputs).1 := by
  rw [run_result]
  exact runWithin_orderly hclosed limit limit (State.start_fits hclosed inputs)

end Machine

/-! ## Generated programs -/

theorem generate_closed {tree : Tree} {symbols : SymbolTable}
    {program : Program} (hlawful : symbols.Lawful)
    (hgenerate : generate tree symbols = .ok program) :
    program.Closed := by
  obtain ⟨block, -, hfaults, rfl⟩ := generate_eq_ok hgenerate
  apply Program.ofBlock_closed
  intro name hname
  have hsome := ((block.faults_eq_nil_iff symbols).mp hfaults).2 name hname
  obtain ⟨location, hlocation⟩ := Option.isSome_iff_exists.mp hsome
  rw [SymbolTable.locate_of_location? hlocation]
  exact hlawful.lt_size hlocation

/-- Whatever tree, types and table of noted occurrences a program was generated
from, it mentions only its own memory, jumps only to its own instructions, and
no run of it leaves either. -/
theorem generated_program_in_range (tree : Tree)
    (occurrences : List (String × Nat)) (program : Program)
    (hgenerate : generate tree (SymbolTable.empty.resolveAll occurrences) =
      .ok program) :
    (∀ instruction ∈ program.code.toList,
      (∀ location ∈ instruction.locations, location < program.memorySize) ∧
        ∀ target ∈ instruction.targets, target < program.size) ∧
      ∀ (inputs : List Int32) (limit : Nat),
        Machine.Orderly limit ((Machine.start program limit).run inputs).1 := by
  have hclosed :=
    generate_closed (SymbolTable.resolveAll_lawful occurrences) hgenerate
  exact ⟨fun instruction hmem =>
    ⟨hclosed.locations instruction hmem, hclosed.targets instruction hmem⟩,
    fun inputs limit => Machine.run_orderly hclosed limit inputs⟩

def singleRead : Tree where
  nodes := #[.fresh 1 (.read "x")]
  root := some 0

/-- A table that is not the one of the program itself. -/
def singleReadTable : SymbolTable :=
  SymbolTable.empty.resolveAll [("y", 3), ("x", 4)]

theorem generated_read_in_range :
    ∃ program, generate singleRead singleReadTable = .ok program ∧
      ∀ (inputs : List Int32) (limit : Nat),
        Machine.Orderly limit ((Machine.start program limit).run inputs).1 := by
  have hprogram : singleRead.program =
    .ok (.cons (.read ⟨0, 1, .void⟩ "x") .nil) := rfl
  have hclean : (Block.cons (.read ⟨0, 1, .void⟩ "x") .nil).faults
      singleReadTable = [] := by
    rw [Block.faults_eq_nil_iff]
    simp [singleReadTable, Analyzed, Block.exprNotes, Block.names,
      Stmt.exprNotes, Stmt.names, SymbolTable.location?_resolveAll_isSome]
  have hgenerate := generate_eq hprogram singleReadTable
  rw [hclean] at hgenerate
  exact ⟨_, hgenerate, (generated_program_in_range _ _ _ hgenerate).2⟩

end TinyCompiler
