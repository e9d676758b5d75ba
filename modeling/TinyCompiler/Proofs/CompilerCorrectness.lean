import TinyCompiler.Proofs.ExpressionExecution
import TinyCompiler.Proofs.GeneratedCodeSafety
import TinyCompiler.Proofs.SymbolTableLaws

/-!
# Correctness of the code layout

The machine on the program of a block follows the interpreter on the block.  It
reaches the end of the code of a statement in the state in which the interpreter
finishes the statement, stops with the fault that stops the interpreter, and
takes at least as many steps as the interpreter is allowed rounds when that does
not come to an end.
-/

namespace TinyCompiler

/-- The fault of the machine at an address that a fault of the interpreter shows
as. -/
def Interpreter.Fault.atAddress (address : Nat) :
    Interpreter.Fault → Machine.Fault
  | .divisionByZero => .divisionByZero address
  | .inputExhausted => .inputExhausted address

/-- Every variable of the table has its value in its memory cell. -/
def SymbolTable.Shows (symbols : SymbolTable) (store : String → Int32)
    (memory : Array Int32) : Prop :=
  ∀ name location, symbols.location? name = some location →
    memory[location]? = some (store name)

namespace Machine

/-- The machine is at an address and otherwise where the interpreter is. -/
structure Reflects (program : Program) (symbols : SymbolTable) (address : Nat)
    (run : Interpreter.State) (state : State) : Prop where
  counter : state.counter = address
  size : state.memory.size = program.memorySize
  shows : symbols.Shows run.store state.memory
  inputs : state.inputs = run.inputs
  outputs : state.outputs = run.outputs

/-- What the machine does from a state on, for an execution by the interpreter
that leads to an address. -/
def Follows (program : Program) (symbols : SymbolTable) (state : State)
    (address bound : Nat) :
    Interpreter.Execution → Prop
  | .finished run => ∃ count final, Steps program count state final ∧
      Reflects program symbols address run final
  | .faulted fault run => ∃ count final, Steps program count state final ∧
      Reflects program symbols final.counter run final ∧
      step program final = .failed (fault.atAddress final.counter) final
  | .unfinished =>
      ∃ count final, bound ≤ count ∧ Steps program count state final

section Follows

variable {program : Program} {symbols : SymbolTable}
  {address middleAddress base bound lower count : Nat} {run : Interpreter.State}
  {state middle : State} {execution : Interpreter.Execution}

theorem Reflects.goto (hreflects : Reflects program symbols address run state)
    (target : Nat) (accumulator : Int32) :
    Reflects program symbols target run
      { state with counter := target, accumulator := accumulator } :=
  { hreflects with counter := rfl }

theorem Reflects.sameBelow
    (hreflects : Reflects program symbols address run state)
    (hlawful : symbols.Lawful) (hsame : state.SameBelow symbols.size middle) :
    Reflects program symbols middle.counter run middle where
  counter := rfl
  size := hsame.size.trans hreflects.size
  shows name location hlocation :=
    (hsame.cell location (hlawful.lt_size hlocation)).trans
      (hreflects.shows name location hlocation)
  inputs := hsame.inputs.trans hreflects.inputs
  outputs := by
    unfold State.outputs
    rw [hsame.written]
    exact hreflects.outputs

/-- A value that goes to the cell of a variable in the machine goes to the
variable in the interpreter. -/
theorem Reflects.assign (hreflects : Reflects program symbols address run state)
    (hlawful : symbols.Lawful) {name : String} {location : Nat}
    (hlocation : symbols.location? name = some location) (value : Int32) :
    Reflects program symbols (address + 1) (run.assign name value) { state with
      counter := state.counter + 1
      memory := state.memory.set! location value } where
  counter := congrArg (· + 1) hreflects.counter
  size := by simpa using hreflects.size
  shows other otherLocation hother := by
    have hcell := hreflects.shows other otherLocation hother
    by_cases hsame : otherLocation = location
    · subst hsame
      obtain rfl := hlawful.name_eq hlocation hother
      obtain ⟨hlt, -⟩ := Array.getElem?_eq_some_iff.mp hcell
      simp [Interpreter.State.assign, hlt]
    · have hname : other ≠ name := by
        rintro rfl
        rw [hlocation] at hother
        exact hsame (Option.some.inj hother).symm
      simpa [Interpreter.State.assign, hname, Ne.symm hsame] using hcell
  inputs := hreflects.inputs
  outputs := hreflects.outputs

theorem Reflects.lt_size
    (hreflects : Reflects program symbols address run state) {name : String}
    {location : Nat} (hlocation : symbols.location? name = some location) :
    location < state.memory.size :=
  (Array.getElem?_eq_some_iff.mp (hreflects.shows name location hlocation)).1

theorem Reflects.codeAt (hreflects : Reflects program symbols address run state)
    {code : List Instruction} (hcode : program.CodeAt address code) :
    program.CodeAt state.counter code := by
  rwa [hreflects.counter]

theorem Follows.after
    (hfollows : Follows program symbols middle address bound execution)
    (hsteps : Steps program count state middle) :
    Follows program symbols state address (count + bound) execution := by
  cases execution with
  | finished run =>
      obtain ⟨more, final, hmore, hfinal⟩ := hfollows
      exact ⟨count + more, final, hsteps.trans hmore, hfinal⟩
  | faulted fault run =>
      obtain ⟨more, final, hmore, hfinal, hfault⟩ := hfollows
      exact ⟨count + more, final, hsteps.trans hmore, hfinal, hfault⟩
  | unfinished =>
      obtain ⟨more, final, hbound, hmore⟩ := hfollows
      exact ⟨count + more, final, Nat.add_le_add_left hbound count,
        hsteps.trans hmore⟩

theorem Follows.mono
    (hfollows : Follows program symbols state address bound execution)
    (hle : lower ≤ bound) :
    Follows program symbols state address lower execution := by
  cases execution with
  | finished run => exact hfollows
  | faulted fault run => exact hfollows
  | unfinished =>
      obtain ⟨count, final, hbound, hsteps⟩ := hfollows
      exact ⟨count, final, Nat.le_trans hle hbound, hsteps⟩

theorem Follows.prepend
    (hfollows : Follows program symbols middle address bound execution)
    (hsteps : Steps program count state middle) :
    Follows program symbols state address bound execution :=
  (hfollows.after hsteps).mono (Nat.le_add_left bound count)

/-- Execution goes on behind an execution that finishes. -/
theorem Follows.andThen {next : Interpreter.State → Interpreter.Execution}
    (hfollows : Follows program symbols state middleAddress bound execution)
    (hnext : ∀ run middle, Reflects program symbols middleAddress run middle →
      Follows program symbols middle address bound (next run)) :
    Follows program symbols state address bound (execution.andThen next) := by
  cases execution with
  | finished run =>
      obtain ⟨count, middle, hsteps, hmiddle⟩ := hfollows
      exact (hnext run middle hmiddle).prepend hsteps
  | faulted fault run => exact hfollows
  | unfinished => exact hfollows

/-- Execution goes on behind the code of an expression with its value in the
accumulator. -/
theorem evaluate_follows (hclosed : program.Closed) (hlawful : symbols.Lawful)
    {expr : Expr α} {next : Int32 → Interpreter.Execution}
    (hnames : ∀ name ∈ expr.names, (symbols.location? name).isSome)
    (hcode : program.CodeAt base (expr.code symbols.locate symbols.size))
    (hreflects : Reflects program symbols base run state)
    (hnext : ∀ middle, Reflects program symbols
      (base + (expr.code symbols.locate symbols.size).length) run middle →
        Follows program symbols middle address bound
          (next middle.accumulator)) :
    Follows program symbols state address bound
      (Interpreter.evaluate expr run next) := by
  have hstores : state.Stores symbols.locate symbols.size run.store
      expr.names := by
    intro name hname
    obtain ⟨location, hlocation⟩ :=
      Option.isSome_iff_exists.mp (hnames name hname)
    rw [SymbolTable.locate_of_location? hlocation]
    exact ⟨hlawful.lt_size hlocation, hreflects.shows name location hlocation⟩
  have hcovers : state.Covers (expr.code symbols.locate symbols.size) := by
    rintro location ⟨instruction, hmem, hlocation⟩
    rw [hreflects.size]
    exact hclosed.locations instruction (hcode.mem hmem) location hlocation
  have heval := expr.code_evaluates (hreflects.codeAt hcode) hcovers hstores
  unfold Interpreter.evaluate
  cases hvalue : expr.value? run.store with
  | some value =>
      rw [hvalue] at heval
      obtain ⟨count, middle, hsteps, hsame, hcounter, rfl⟩ := heval
      have hmiddle := hreflects.sameBelow hlawful hsame
      rw [hcounter, hreflects.counter] at hmiddle
      exact (hnext middle hmiddle).prepend hsteps
  | none =>
      rw [hvalue] at heval
      obtain ⟨count, final, hsteps, hsame, -, hfault⟩ := heval
      exact ⟨count, final, hsteps, hreflects.sameBelow hlawful hsame, hfault⟩

theorem step_jump {target : Nat}
    (hfetch : program.get? state.counter = some (.jump target)) :
    step program state = .next { state with counter := target } :=
  step_eq_execute hfetch

theorem step_jumpIfZero {target : Nat}
    (hfetch : program.get? state.counter = some (.jumpIfZero target)) :
    step program state = .next { state with
      counter :=
        if state.accumulator = 0 then target else state.counter + 1 } :=
  step_eq_execute hfetch

theorem Follows.jump {target : Nat} {code : List Instruction}
    (hfollows : Follows program symbols state middleAddress bound execution)
    (hcode : program.CodeAt middleAddress (.jump target :: code)) :
    Follows program symbols state target bound execution := by
  cases execution with
  | finished run =>
      obtain ⟨count, middle, hsteps, hmiddle⟩ := hfollows
      have hjump := Steps.single (step_jump (hmiddle.codeAt hcode).fetch)
      exact ⟨count + 1, _, hsteps.trans hjump,
        hmiddle.goto target middle.accumulator⟩
  | faulted fault run => exact hfollows
  | unfinished => exact hfollows

end Follows

end Machine

/-! ## Statements -/

section Statements

variable {program : Program} {symbols : SymbolTable} {bound : Nat}

open Machine

/-- The test behind the body of a loop leads back to the body as long as it is
0.  Every round takes at least the step of the jump. -/
theorem rounds_follows (hclosed : program.Closed) (hlawful : symbols.Lawful)
    {body : Interpreter.State → Interpreter.Execution} {test : Expr α}
    {base middle : Nat}
    (hnames : ∀ name ∈ test.names, (symbols.location? name).isSome)
    (hcode : program.CodeAt middle
      (test.code symbols.locate symbols.size ++ [.jumpIfZero base]))
    (hbody : ∀ run state, Reflects program symbols base run state →
      Follows program symbols state middle bound (body run)) {count : Nat}
    (hcount : count ≤ bound) {run : Interpreter.State} {state : State}
    (hreflects : Reflects program symbols base run state) :
    Follows program symbols state
      (middle + ((test.code symbols.locate symbols.size).length + 1)) count
      (Interpreter.rounds body test count run) := by
  induction count generalizing run state with
  | zero => exact ⟨0, state, Nat.le_refl 0, .refl state⟩
  | succ count ih =>
      unfold Interpreter.rounds
      refine ((hbody run state hreflects).mono hcount).andThen
        fun after next hnext => ?_
      refine evaluate_follows hclosed hlawful hnames hcode.left hnext
        fun final hfinal => ?_
      have hjump :=
        Steps.single (step_jumpIfZero (hfinal.codeAt hcode.right).fetch)
      by_cases hzero : final.accumulator = 0
      · rw [if_pos hzero] at hjump ⊢
        -- One round less is left, and the jump back makes up for it.
        have hagain :=
          ih (Nat.le_of_succ_le hcount) (hfinal.goto base final.accumulator)
        rw [Nat.add_comm count 1]
        exact hagain.after hjump
      · rw [if_neg hzero, hfinal.counter] at hjump
        rw [if_neg hzero]
        exact ⟨1, _, hjump, hfinal.goto _ final.accumulator⟩

/-- The machine follows the interpreter on the code of a statement, wherever
that stands. -/
def Stmt.Followed (program : Program) (symbols : SymbolTable) (bound : Nat)
    (stmt : Stmt α) : Prop :=
  ∀ ⦃base : Nat⦄ ⦃run : Interpreter.State⦄ ⦃state : State⦄,
    program.CodeAt base (stmt.code symbols.locate symbols.size base) →
    Reflects program symbols base run state →
      Follows program symbols state
        (base + (stmt.code symbols.locate symbols.size base).length) bound
        (stmt.interpret bound run)

def Block.Followed (program : Program) (symbols : SymbolTable) (bound : Nat)
    (block : Block α) : Prop :=
  ∀ ⦃base : Nat⦄ ⦃run : Interpreter.State⦄ ⦃state : State⦄,
    program.CodeAt base (block.code symbols.locate symbols.size base) →
    Reflects program symbols base run state →
      Follows program symbols state
        (base + (block.code symbols.locate symbols.size base).length) bound
        (block.interpret bound run)

section Followed

variable (hclosed : program.Closed) (hlawful : symbols.Lawful) {note : α}
  {name : String} {value test : Expr α} {thenPart elsePart body : Block α}

include hlawful

theorem Stmt.read_followed (hname : (symbols.location? name).isSome) :
    (Stmt.read note name).Followed program symbols bound := by
  intro base run state hcode hreflects
  obtain ⟨location, hlocation⟩ := Option.isSome_iff_exists.mp hname
  have hstep := step_eq_execute (hreflects.codeAt hcode).fetch
  rw [SymbolTable.locate_of_location? hlocation] at hstep
  unfold Stmt.interpret
  cases hinputs : run.inputs with
  | nil =>
      have hempty : state.inputs = [] := hreflects.inputs.trans hinputs
      simp only [execute, hempty] at hstep
      refine ⟨0, state, .refl state, ?_, hstep⟩
      exact hreflects.goto state.counter state.accumulator
  | cons value rest =>
      have htaken : state.inputs = value :: rest :=
        hreflects.inputs.trans hinputs
      simp only [execute, htaken, State.put] at hstep
      rw [if_pos (hreflects.lt_size hlocation)] at hstep
      have hrest : Reflects program symbols base { run with inputs := rest }
          { state with inputs := rest } := { hreflects with inputs := rfl }
      exact ⟨1, _, .single hstep, hrest.assign hlawful hlocation value⟩

include hclosed

theorem Stmt.assign_followed (hname : (symbols.location? name).isSome)
    (hnames : ∀ other ∈ value.names, (symbols.location? other).isSome) :
    (Stmt.assign note name value).Followed program symbols bound := by
  intro base run state hcode hreflects
  obtain ⟨location, hlocation⟩ := Option.isSome_iff_exists.mp hname
  unfold Stmt.interpret
  refine evaluate_follows hclosed hlawful hnames hcode.left hreflects
    fun final hfinal => ?_
  have hstore := (hfinal.codeAt hcode.right).fetch
  rw [SymbolTable.locate_of_location? hlocation] at hstore
  have hassign := hfinal.assign hlawful hlocation final.accumulator
  rw [Stmt.code, List.length_append]
  exact ⟨1, _, .single (step_put hstore (hfinal.lt_size hlocation)), hassign⟩

theorem Stmt.write_followed
    (hnames : ∀ other ∈ value.names, (symbols.location? other).isSome) :
    (Stmt.write note value).Followed program symbols bound := by
  intro base run state hcode hreflects
  unfold Stmt.interpret
  refine evaluate_follows hclosed hlawful hnames hcode.left hreflects
    fun final hfinal => ?_
  have hstep := step_eq_execute (hfinal.codeAt hcode.right).fetch
  refine ⟨1, _, .single hstep, ?_⟩
  rw [Stmt.code, List.length_append]
  refine { hfinal with
    counter := congrArg (· + 1) hfinal.counter
    outputs := ?_ }
  simp only [State.outputs, List.reverse_cons]
  exact congrArg (· ++ [final.accumulator]) hfinal.outputs

theorem Stmt.ifThen_followed
    (hnames : ∀ other ∈ test.names, (symbols.location? other).isSome)
    (hthen : thenPart.Followed program symbols bound) :
    (Stmt.ifThen note test thenPart).Followed program symbols bound := by
  intro base run state hcode hreflects
  unfold Stmt.interpret
  refine evaluate_follows hclosed hlawful hnames hcode.left hreflects
    fun final hfinal => ?_
  have hjump := Steps.single (step_jumpIfZero (hfinal.codeAt hcode.right).fetch)
  rw [Stmt.code, add_length_branchCode]
  by_cases hzero : final.accumulator = 0
  · rw [if_pos hzero] at hjump ⊢
    exact ⟨1, _, hjump, hfinal.goto _ final.accumulator⟩
  · rw [if_neg hzero, hfinal.counter] at hjump
    rw [if_neg hzero]
    have hpart := hthen hcode.right.tail (hfinal.goto _ final.accumulator)
    exact hpart.prepend hjump

theorem Stmt.ifElse_followed
    (hnames : ∀ other ∈ test.names, (symbols.location? other).isSome)
    (hthen : thenPart.Followed program symbols bound)
    (helse : elsePart.Followed program symbols bound) :
    (Stmt.ifElse note test thenPart elsePart).Followed program
      symbols bound := by
  intro base run state hcode hreflects
  unfold Stmt.interpret
  refine evaluate_follows hclosed hlawful hnames hcode.left hreflects
    fun final hfinal => ?_
  have hjump := Steps.single (step_jumpIfZero (hfinal.codeAt hcode.right).fetch)
  have hsecond :=
    helse hcode.right.tail.right.tail (hfinal.goto _ final.accumulator)
  have hfirst :=
    (hthen hcode.right.tail.left (hfinal.goto _ final.accumulator)).jump
    hcode.right.tail.right
  rw [Stmt.code, add_length_choiceCode]
  by_cases hzero : final.accumulator = 0
  · rw [if_pos hzero] at hjump ⊢
    exact hsecond.prepend hjump
  · rw [if_neg hzero, hfinal.counter] at hjump
    rw [if_neg hzero]
    exact hfirst.prepend hjump

theorem Stmt.repeatUntil_followed
    (hnames : ∀ other ∈ test.names, (symbols.location? other).isSome)
    (hbody : body.Followed program symbols bound) :
    (Stmt.repeatUntil note body test).Followed program symbols bound := by
  intro base run state hcode hreflects
  have hloop := rounds_follows hclosed hlawful hnames hcode.right
    (fun run state hreflects => hbody hcode.left hreflects)
    (Nat.le_refl bound) hreflects
  rw [Nat.add_assoc] at hloop
  simpa [Stmt.code, Stmt.interpret] using hloop

end Followed

mutual

theorem Stmt.code_follows (hclosed : program.Closed)
    (hlawful : symbols.Lawful) :
    ∀ (stmt : Stmt α), (∀ name ∈ stmt.names, (symbols.location? name).isSome) →
      stmt.Followed program symbols bound
  | .read note name, hnames =>
      Stmt.read_followed hlawful (hnames name (by simp [Stmt.names]))
  | .assign note name value, hnames =>
      Stmt.assign_followed hclosed hlawful (hnames name (by simp [Stmt.names]))
        fun other hother => hnames other (by simp [Stmt.names, hother])
  | .write note value, hnames => Stmt.write_followed hclosed hlawful hnames
  | .ifThen note test thenPart, hnames => by
      simp only [Stmt.names, List.mem_append, or_imp, forall_and] at hnames
      exact Stmt.ifThen_followed hclosed hlawful hnames.1
        (Block.code_follows hclosed hlawful thenPart hnames.2)
  | .ifElse note test thenPart elsePart, hnames => by
      simp only [Stmt.names, List.mem_append, or_imp, forall_and] at hnames
      obtain ⟨⟨htestNames, hthenNames⟩, helseNames⟩ := hnames
      exact Stmt.ifElse_followed hclosed hlawful htestNames
        (Block.code_follows hclosed hlawful thenPart hthenNames)
        (Block.code_follows hclosed hlawful elsePart helseNames)
  | .repeatUntil note body test, hnames => by
      simp only [Stmt.names, List.mem_append, or_imp, forall_and] at hnames
      exact Stmt.repeatUntil_followed hclosed hlawful hnames.2
        (Block.code_follows hclosed hlawful body hnames.1)

theorem Block.code_follows (hclosed : program.Closed)
    (hlawful : symbols.Lawful) :
    ∀ (block : Block α),
      (∀ name ∈ block.names, (symbols.location? name).isSome) →
      block.Followed program symbols bound
  | .nil, hnames =>
      fun _ _ state _ hreflects => ⟨0, state, .refl state, hreflects⟩
  | .cons first rest, hnames => by
      intro base run state hcode hreflects
      simp only [Block.names, List.mem_append, or_imp, forall_and] at hnames
      have hfirst :=
        Stmt.code_follows hclosed hlawful first hnames.1 hcode.left hreflects
      rw [Block.code, List.length_append, ← Nat.add_assoc]
      exact hfirst.andThen fun after next hnext =>
        Block.code_follows hclosed hlawful rest hnames.2 hcode.right hnext

end

end Statements

/-! ## Programs -/

/-- The machine gives what the interpreter gives.  A run agrees if its step
limit is large enough, and every limit is too small for a block without an
end. -/
structure Program.Implements (program : Program) (symbols : SymbolTable)
    (block : Block α) :
    Prop where
  located : ∀ name ∈ block.names, (symbols.location? name).isSome
  finishes : ∀ inputs final, block.Finishes inputs final →
    ∃ enough, ∀ machine : Machine,
      machine.program = program → enough ≤ machine.stepLimit →
      (machine.run inputs).1 = .ok final.outputs ∧
        symbols.Shows final.store (machine.run inputs).2.memory
  faults : ∀ inputs fault final, block.FaultsIn inputs fault final →
    ∃ enough address, ∀ machine : Machine, machine.program = program →
      enough ≤ machine.stepLimit →
        (machine.run inputs).1 = .error (fault.atAddress address) ∧
          symbols.Shows final.store (machine.run inputs).2.memory
  diverges : ∀ inputs, block.Diverges inputs →
    ∀ machine : Machine, machine.program = program →
      (machine.run inputs).1 = .error (.stepLimitExceeded machine.stepLimit)

namespace Program

open Machine

variable {symbols : SymbolTable} {block : Block α}

theorem ofBlock_codeAt :
    (ofBlock symbols block).CodeAt 0
      (block.code symbols.locate symbols.size 0 ++ [.halt]) :=
  ⟨[], [], by simp [ofBlock], rfl⟩

theorem ofBlock_reflects_start (hlawful : symbols.Lawful)
    (inputs : List Int32) :
    Reflects (ofBlock symbols block) symbols 0 (.start inputs)
      (.start (ofBlock symbols block).memorySize inputs) where
  counter := rfl
  size := Array.size_replicate
  shows name location hlocation := by
    have hlt : location < (ofBlock symbols block).memorySize :=
      Nat.lt_of_lt_of_le (hlawful.lt_size hlocation) (Nat.le_add_right _ _)
    simp [State.start, hlt, Interpreter.State.start]
  inputs := rfl
  outputs := rfl

theorem ofBlock_follows (hlawful : symbols.Lawful)
    (hnames : ∀ name ∈ block.names, (symbols.location? name).isSome)
    (inputs : List Int32) (bound : Nat) :
    Follows (ofBlock symbols block) symbols
      (.start (ofBlock symbols block).memorySize inputs)
      (0 + (block.code symbols.locate symbols.size 0).length) bound
      (block.interpret bound (.start inputs)) := by
  have hlocated : ∀ name ∈ block.names, symbols.locate name < symbols.size := by
    intro name hname
    obtain ⟨location, hlocation⟩ :=
      Option.isSome_iff_exists.mp (hnames name hname)
    rw [SymbolTable.locate_of_location? hlocation]
    exact hlawful.lt_size hlocation
  exact Block.code_follows (ofBlock_closed hlocated) hlawful block hnames
    ofBlock_codeAt.left
    (ofBlock_reflects_start hlawful inputs)

theorem ofBlock_implements (hlawful : symbols.Lawful)
    (hnames : ∀ name ∈ block.names, (symbols.location? name).isSome) :
    (ofBlock symbols block).Implements symbols block where
  located := hnames
  finishes := by
    rintro inputs run ⟨bound, hrun⟩
    have hfollows := ofBlock_follows hlawful hnames inputs bound
    rw [hrun] at hfollows
    obtain ⟨count, final, hsteps, hfinal⟩ := hfollows
    have hhalt : step (ofBlock symbols block) final = .halted final :=
      step_eq_execute (hfinal.codeAt ofBlock_codeAt.right).fetch
    refine ⟨count + 1, ?_⟩
    intro machine hprogram henough
    rw [run_result, run_memory, hprogram,
      hsteps.runWithin_of_halted hhalt machine.stepLimit henough]
    exact ⟨congrArg Except.ok hfinal.outputs, hfinal.shows⟩
  faults := by
    rintro inputs fault run ⟨bound, hrun⟩
    have hfollows := ofBlock_follows hlawful hnames inputs bound
    rw [hrun] at hfollows
    obtain ⟨count, final, hsteps, hfinal, hfault⟩ := hfollows
    refine ⟨count + 1, final.counter, ?_⟩
    intro machine hprogram henough
    rw [run_result, run_memory, hprogram,
      hsteps.runWithin_of_failed hfault machine.stepLimit henough]
    exact ⟨rfl, hfinal.shows⟩
  diverges := by
    intro inputs hdiverges machine hprogram
    have hfollows := ofBlock_follows hlawful hnames inputs machine.stepLimit
    rw [hdiverges] at hfollows
    obtain ⟨count, final, hcount, hsteps⟩ := hfollows
    rw [run_result, hprogram]
    exact hsteps.runWithin_exceeds machine.stepLimit hcount

end Program

end TinyCompiler
