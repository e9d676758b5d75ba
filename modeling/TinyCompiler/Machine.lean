import TinyCompiler.Instruction

/-!
# The accumulator machine

A machine runs one program as often as it is asked to.  Every run starts at
address 0 with a cleared memory and accumulator, takes inputs in order, and ends
at a `HALT`, at a fault, or when it has used up its step limit.  What a run
leaves in the memory and in the registers stays until the next one.
-/

namespace TinyCompiler

namespace Machine

inductive Fault where
  | divisionByZero (address : Nat)
  | inputExhausted (address : Nat)
  | addressOutOfRange (address : Nat)
  | memoryOutOfRange (location address : Nat)
  | stepLimitExceeded (limit : Nat)
  deriving DecidableEq, Repr

def Fault.message : Fault → String
  | .divisionByZero address =>
      "division by zero at address " ++ toString address
  | .inputExhausted address =>
      "read at address " ++ toString address ++ " with no input left"
  | .addressOutOfRange address =>
      "jump or fall-through to address " ++ toString address ++
        " outside the program"
  | .memoryOutOfRange location address =>
      "memory location " ++ toString location ++
        " outside the data area at address " ++
        toString address
  | .stepLimitExceeded limit =>
      "step limit of " ++ toString limit ++ " exceeded"

/-- What changes during a run. -/
structure State where
  counter : Nat
  accumulator : Int32
  memory : Array Int32
  inputs : List Int32
  /-- The outputs so far, the latest first. -/
  written : List Int32
  deriving DecidableEq, Repr

inductive Outcome where
  | next (state : State)
  | halted (state : State)
  | failed (fault : Fault) (state : State)
  deriving DecidableEq, Repr

namespace State

def start (memorySize : Nat) (inputs : List Int32) : State where
  counter := 0
  accumulator := 0
  memory := Array.replicate memorySize 0
  inputs := inputs
  written := []

def outputs (state : State) : List Int32 :=
  state.written.reverse

def operand (state : State) : Operand → Except Fault Int32
  | .immediate value => .ok value
  | .memory location =>
      match state.memory[location]? with
      | some value => .ok value
      | none => .error (.memoryOutOfRange location state.counter)

def accumulate (state : State) (value : Int32) : Outcome :=
  .next { state with counter := state.counter + 1, accumulator := value }

def put (state : State) (location : Nat) (value : Int32) : Outcome :=
  if location < state.memory.size then
    .next { state with
      counter := state.counter + 1
      memory := state.memory.set! location value }
  else .failed (.memoryOutOfRange location state.counter) state

end State

/-- Executes one instruction.  An input is taken before the cell it goes to is
looked at. -/
def execute (state : State) : Instruction → Outcome
  | .loadImmediate value => state.accumulate value
  | .load location =>
      match state.operand (.memory location) with
      | .ok value => state.accumulate value
      | .error fault => .failed fault state
  | .store location => state.put location state.accumulator
  | .operate operator operand =>
      match state.operand operand with
      | .error fault => .failed fault state
      | .ok value =>
          match operator.result? state.accumulator value with
          | some result => state.accumulate result
          | none => .failed (.divisionByZero state.counter) state
  | .jump target => .next { state with counter := target }
  | .jumpIfZero target =>
      .next { state with
        counter := if state.accumulator = 0 then target else state.counter + 1 }
  | .read location =>
      match state.inputs with
      | [] => .failed (.inputExhausted state.counter) state
      | value :: rest => { state with inputs := rest }.put location value
  | .write =>
      .next { state with
        counter := state.counter + 1
        written := state.accumulator :: state.written }
  | .halt => .halted state

def step (program : Program) (state : State) : Outcome :=
  match program.get? state.counter with
  | none => .failed (.addressOutOfRange state.counter) state
  | some instruction => execute state instruction

/-- At most `budget` steps, of the `limit` that a run may take.  The state is
the one in which the run ended. -/
def runWithin (program : Program) (limit : Nat) :
    Nat → State → Except Fault (List Int32) × State
  | 0, state => (.error (.stepLimitExceeded limit), state)
  | budget + 1, state =>
      match step program state with
      | .next next => runWithin program limit budget next
      | .halted final => (.ok final.outputs, final)
      | .failed fault final => (.error fault, final)

/-- An instruction about to be executed, and the accumulator before it. -/
structure Visit where
  address : Nat
  instruction : Instruction
  accumulator : Int32
  deriving DecidableEq, Repr

/-- The instructions that at most `budget` steps execute, behind those
`seen`. -/
def visitsWithin (program : Program) :
    Nat → State → Array Visit → Array Visit
  | 0, _, seen => seen
  | budget + 1, state, seen =>
      match program.get? state.counter with
      | none => seen
      | some instruction =>
          let seen := seen.push ⟨state.counter, instruction, state.accumulator⟩
          match execute state instruction with
          | .next next => visitsWithin program budget next seen
          | _ => seen

def defaultStepLimit : Nat := 1000000

/-! ## The size of the memory -/

/-- The state that an outcome leaves. -/
def Outcome.state : Outcome → State
  | .next state | .halted state | .failed _ state => state

theorem State.size_memory_put (state : State) (location : Nat) (value : Int32) :
    (state.put location value).state.memory.size = state.memory.size := by
  unfold put
  split
  · exact Array.size_setIfInBounds
  · rfl

theorem size_memory_execute (state : State) (instruction : Instruction) :
    (execute state instruction).state.memory.size = state.memory.size := by
  cases instruction with
  | load location =>
      simp only [execute]
      split <;> rfl
  | store location => exact state.size_memory_put location state.accumulator
  | operate operator operand =>
      simp only [execute]
      split
      · rfl
      · split <;> rfl
  | read location =>
      simp only [execute]
      split
      · rfl
      · exact State.size_memory_put _ location _
  | loadImmediate | jump | jumpIfZero | write | halt => rfl

theorem size_memory_step (program : Program) (state : State) :
    (step program state).state.memory.size = state.memory.size := by
  unfold step
  split
  · rfl
  · exact size_memory_execute state _

/-- A run never changes the size of the memory, however it ends. -/
theorem size_memory_runWithin (program : Program) (limit budget : Nat)
    (state : State) :
    (runWithin program limit budget state).2.memory.size =
      state.memory.size := by
  induction budget generalizing state with
  | zero => rfl
  | succ budget ih =>
      have hstep := size_memory_step program state
      unfold runWithin
      cases houtcome : step program state with
      | next next =>
          rw [houtcome] at hstep
          exact (ih next).trans hstep
      | halted final =>
          rw [houtcome] at hstep
          exact hstep
      | failed fault final =>
          rw [houtcome] at hstep
          exact hstep

end Machine

structure Machine where
  program : Program
  stepLimit : Nat
  /-- What the last run left; all cells are 0 before the first. -/
  memory : Array Int32
  /-- What the last run left, as in the memory. -/
  accumulator : Int32
  /-- Where the last run stopped; 0 before the first. -/
  counter : Nat
  size_memory : memory.size = program.memorySize
  deriving DecidableEq, Repr

namespace Machine

def start (program : Program) (stepLimit : Nat) : Machine where
  program := program
  stepLimit := stepLimit
  memory := Array.replicate program.memorySize 0
  accumulator := 0
  counter := 0
  size_memory := Array.size_replicate

def withStepLimit (machine : Machine) (stepLimit : Nat) : Machine :=
  { machine with stepLimit := stepLimit }

/-- The state in which a run begins.  The cells and the registers are set back
to 0, and the memory keeps its size. -/
def reset (machine : Machine) (inputs : List Int32) : State where
  counter := 0
  accumulator := 0
  memory := machine.memory.map fun _ => 0
  inputs := inputs
  written := []

theorem reset_eq (machine : Machine) (inputs : List Int32) :
    machine.reset inputs = .start machine.program.memorySize inputs := by
  rw [reset, Array.map_const', machine.size_memory]
  rfl

/-- Where a run stops.  The counter has passed an instruction as soon as that is
fetched, and stays where there is none to fetch or no step left. -/
def counterAfter (result : Except Fault (List Int32)) (counter : Nat) : Nat :=
  match result with
  | .error (.addressOutOfRange _) | .error (.stepLimitExceeded _) => counter
  | _ => counter + 1

/-- Runs the program on inputs; gives the outputs or the fault, and the machine
afterwards. -/
def run (machine : Machine) (inputs : List Int32) :
    Except Fault (List Int32) × Machine :=
  let ended := runWithin machine.program machine.stepLimit machine.stepLimit
    (machine.reset inputs)
  (ended.1, { machine with
    memory := ended.2.memory
    accumulator := ended.2.accumulator
    counter := counterAfter ended.1 ended.2.counter
    size_memory := by
      rw [size_memory_runWithin, reset, Array.size_map, machine.size_memory] })

theorem run_result (machine : Machine) (inputs : List Int32) :
    (machine.run inputs).1 =
      (runWithin machine.program machine.stepLimit machine.stepLimit
        (.start machine.program.memorySize inputs)).1 := by
  rw [← reset_eq]
  rfl

theorem run_memory (machine : Machine) (inputs : List Int32) :
    (machine.run inputs).2.memory =
      (runWithin machine.program machine.stepLimit machine.stepLimit
        (.start machine.program.memorySize inputs)).2.memory := by
  rw [← reset_eq]
  rfl

def visits (machine : Machine) (inputs : List Int32) : Array Visit :=
  visitsWithin machine.program machine.stepLimit (machine.reset inputs) #[]

end Machine

end TinyCompiler
