import TinyCompiler.Proofs.MachineExecution

/-!
# What a run needs

A run takes some steps and ends behind them: at a `HALT`, at a fault, or because
it may take no more.  The same steps can be taken with more inputs behind those
that they read, and under a larger limit.  So a run that did not end for want of
steps, or of inputs, is not changed by more of them.
-/

namespace TinyCompiler.Machine

variable {program : Program}

/-! ## How a run ends -/

/-- The end of a run that may take `budget` steps, in the state to which so many
steps have led. -/
inductive Ending (program : Program) (limit budget count : Nat)
    (final : State) :
    Except Fault (List Int32) × State → Prop where
  | exceeded : count = budget →
      Ending program limit budget count final
        (.error (.stepLimitExceeded limit), final)
  | halted {last : State} : count < budget → step program final = .halted last →
      Ending program limit budget count final (.ok last.outputs, last)
  | failed {fault : Fault} {last : State} : count < budget →
      step program final = .failed fault last →
      Ending program limit budget count final (.error fault, last)

theorem Ending.after {limit budget count : Nat} {final : State}
    {result : Except Fault (List Int32) × State}
    (hending : Ending program limit budget count final result) :
    Ending program limit (budget + 1) (count + 1) final result := by
  cases hending with
  | exceeded hcount => exact .exceeded (congrArg Nat.succ hcount)
  | halted hcount hhalted => exact .halted (Nat.succ_lt_succ hcount) hhalted
  | failed hcount hfailed => exact .failed (Nat.succ_lt_succ hcount) hfailed

theorem runWithin_ends (program : Program) (limit budget : Nat)
    (state : State) :
    ∃ count final, Steps program count state final ∧
      Ending program limit budget count final
        (runWithin program limit budget state) := by
  induction budget generalizing state with
  | zero => exact ⟨0, state, .refl state, .exceeded rfl⟩
  | succ budget ih =>
      unfold runWithin
      cases hstep : step program state with
      | next next =>
          obtain ⟨count, final, hsteps, hending⟩ := ih next
          exact ⟨count + 1, final, .head hstep hsteps, hending.after⟩
      | halted last =>
          exact ⟨0, state, .refl state, .halted budget.succ_pos hstep⟩
      | failed fault last =>
          exact ⟨0, state, .refl state, .failed budget.succ_pos hstep⟩

/-! ## More steps -/

theorem runWithin_of_larger {limit budget : Nat} {state : State}
    (hsettled : (runWithin program limit budget state).1 ≠
      .error (.stepLimitExceeded limit))
    {larger : Nat} (hlarger : budget ≤ larger) (other : Nat) :
    runWithin program other larger state =
      runWithin program limit budget state := by
  obtain ⟨count, final, hsteps, hending⟩ :=
    runWithin_ends program limit budget state
  generalize runWithin program limit budget state = result at hsettled hending
  cases hending with
  | exceeded => exact absurd rfl hsettled
  | halted hcount hhalted =>
      exact hsteps.runWithin_of_halted hhalted other
        (Nat.lt_of_lt_of_le hcount hlarger)
  | failed hcount hfailed =>
      exact hsteps.runWithin_of_failed hfailed other
        (Nat.lt_of_lt_of_le hcount hlarger)

/-! ## More inputs -/

/-- The state with more inputs behind those that it has. -/
def State.supply (more : List Int32) (state : State) : State :=
  { state with inputs := state.inputs ++ more }

def Outcome.supply (more : List Int32) : Outcome → Outcome
  | .next state => .next (state.supply more)
  | .halted state => .halted (state.supply more)
  | .failed fault state => .failed fault (state.supply more)

section Supply

variable (program : Program) (more : List Int32) (state : State)

theorem State.operand_supply (operand : Operand) :
    (state.supply more).operand operand = state.operand operand := by
  cases operand <;> rfl

theorem State.put_supply (location : Nat) (value : Int32) :
    (state.supply more).put location value =
    (state.put location value).supply more := by
  by_cases hlocation : location < state.memory.size
  · have hsupplied : location < (state.supply more).memory.size := hlocation
    rw [put, put, if_pos hlocation, if_pos hsupplied]
    rfl
  · have hsupplied : ¬ location < (state.supply more).memory.size := hlocation
    rw [put, put, if_neg hlocation, if_neg hsupplied]
    rfl

/-- Only an input that is missing makes a difference. -/
theorem execute_supply (instruction : Instruction)
    (hinput : ∀ address last,
      execute state instruction ≠ .failed (.inputExhausted address) last) :
    execute (state.supply more) instruction =
      (execute state instruction).supply more := by
  cases instruction with
  | load location =>
      simp only [execute, State.operand_supply]
      split <;> rfl
  | store location => exact state.put_supply more location state.accumulator
  | operate operator operand =>
      simp only [execute, State.operand_supply]
      cases state.operand operand with
      | error fault => rfl
      | ok value =>
          have haccumulator : (state.supply more).accumulator =
            state.accumulator := rfl
          simp only [haccumulator]
          cases operator.result? state.accumulator value <;> rfl
  | read location =>
      cases hinputs : state.inputs with
      | nil =>
          refine absurd ?_ (hinput state.counter state)
          simp [execute, hinputs]
      | cons value rest =>
          simp only [execute, State.supply, hinputs, List.cons_append]
          exact State.put_supply more { state with inputs := rest }
            location value
  | loadImmediate | jump | jumpIfZero | write | halt => rfl

theorem step_supply
    (hinput : ∀ address last,
      step program state ≠ .failed (.inputExhausted address) last) :
    step program (state.supply more) = (step program state).supply more := by
  cases hfetch : program.get? state.counter with
  | none => simp [step, State.supply, Outcome.supply, hfetch]
  | some instruction =>
      have hsupplied : program.get? (state.supply more).counter =
        some instruction := hfetch
      rw [step_eq_execute hfetch] at hinput ⊢
      rw [step_eq_execute hsupplied]
      exact execute_supply more state instruction hinput

end Supply

theorem Steps.supply {count : Nat} {state final : State}
    (hsteps : Steps program count state final) (more : List Int32) :
    Steps program count (state.supply more) (final.supply more) := by
  induction hsteps with
  | refl state => exact .refl _
  | @head count state middle final hstep _ ih =>
      have hsupplied := step_supply program more state (by simp [hstep])
      rw [hstep] at hsupplied
      exact .head hsupplied ih

theorem runWithin_supply {limit budget : Nat} {state : State}
    (hinput : ∀ address, (runWithin program limit budget state).1 ≠
      .error (.inputExhausted address)) (more : List Int32) :
    runWithin program limit budget (state.supply more) =
      ((runWithin program limit budget state).1,
        (runWithin program limit budget state).2.supply more) := by
  obtain ⟨count, final, hsteps, hending⟩ :=
    runWithin_ends program limit budget state
  -- A step that leads on missed no input, so that only the last one needs the
  -- hypothesis.
  have hsupplied := hsteps.supply more
  generalize runWithin program limit budget state = result at hinput hending
  cases hending with
  | exceeded hcount =>
      rw [← hcount]
      exact hsupplied.runWithin_eq limit 0
  | halted hcount hhalted =>
      have hlast := step_supply program more final (by simp [hhalted])
      rw [hhalted] at hlast
      exact hsupplied.runWithin_of_halted hlast limit hcount
  | @failed fault last hcount hfailed =>
      have hother : ∀ address, fault ≠ .inputExhausted address := by
        simpa using hinput
      have hlast := step_supply program more final (by simp [hfailed, hother])
      rw [hfailed] at hlast
      exact hsupplied.runWithin_of_failed hlast limit hcount

/-! ## Counting -/

/-- What a run visits, by an invariant of the steps left, the state and the
visits so far. -/
theorem visitsWithin_induction (program : Program)
    (invariant : Nat → State → Array Visit → Prop)
    (conclusion : Array Visit → Prop)
    (stops : ∀ budget state seen, invariant budget state seen → conclusion seen)
    (ends : ∀ budget state seen instruction, invariant (budget + 1) state seen →
      program.get? state.counter = some instruction →
        conclusion (seen.push ⟨state.counter, instruction, state.accumulator⟩))
    (goes : ∀ budget state seen instruction next,
      invariant (budget + 1) state seen →
      program.get? state.counter = some instruction →
        execute state instruction = .next next →
        invariant budget
          next (seen.push ⟨state.counter, instruction, state.accumulator⟩))
    {budget : Nat} {state : State} {seen : Array Visit}
    (holds : invariant budget state seen) :
    conclusion (visitsWithin program budget state seen) := by
  induction budget generalizing state seen with
  | zero => exact stops 0 state seen holds
  | succ budget ih =>
      unfold visitsWithin
      cases hfetch : program.get? state.counter with
      | none => exact stops _ state seen holds
      | some instruction =>
          dsimp only
          cases hexecute : execute state instruction with
          | next next =>
              exact ih (goes budget state seen instruction next holds
                hfetch hexecute)
          | halted final =>
              exact ends budget state seen instruction holds hfetch
          | failed fault final =>
              exact ends budget state seen instruction holds hfetch

theorem size_visitsWithin_le (program : Program) (budget : Nat) (state : State)
    (seen : Array Visit) :
    (visitsWithin program budget state seen).size ≤ seen.size + budget := by
  refine visitsWithin_induction program
    (fun left _ sofar => sofar.size + left ≤ seen.size + budget)
    (fun visits => visits.size ≤ seen.size + budget) ?stops ?ends ?goes
    (Nat.le_refl _)
  case stops =>
    intro left state sofar hsize
    omega
  case ends =>
    intro left state sofar instruction hsize hfetch
    rw [Array.size_push]
    omega
  case goes =>
    intro left state sofar instruction next hsize hfetch hnext
    rw [Array.size_push]
    omega

/-- The run as it counts: its steps from those `taken` upwards, and the counter
moved on as soon as an instruction is fetched.  Gives the steps taken with the
result, and nothing if one of the two has to pass the largest number there
is. -/
def runCounting (program : Program) (limit largest taken : Nat)
    (state : State) :
    Option (Nat × Except Fault (List Int32) × State) :=
  if taken = limit then some (taken, .error (.stepLimitExceeded limit), state)
  else if taken < largest then
    match program.get? state.counter with
    | none => some (taken + 1, .error (.addressOutOfRange state.counter), state)
    | some instruction =>
        if state.counter < largest then
          match execute state instruction with
          | .next next => runCounting program limit largest (taken + 1) next
          | .halted final => some (taken + 1, .ok final.outputs, final)
          | .failed fault final => some (taken + 1, .error fault, final)
        else none
  else none
termination_by largest - taken

/-- A run counts the instructions that it visits, and once more where it finds
none. -/
def Counted (visited count : Nat) (result : Except Fault (List Int32)) : Prop :=
  count = visited ∨ (∃ address, result = .error (.addressOutOfRange address)) ∧
    count = visited + 1

/-- No count overflows where the limit and the size of the program are numbers
that can be counted to, wherever the jumps lead. -/
theorem runCounting_eq {limit largest : Nat} (hlimit : limit ≤ largest)
    (hsize : program.size ≤ largest) (state : State) {budget taken : Nat}
    (hbudget : taken + budget = limit) {seen : Array Visit}
    (hseen : seen.size = taken) :
    ∃ count ≤ limit,
      runCounting program limit largest taken state =
        some (count, runWithin program limit budget state) ∧
      Counted (visitsWithin program budget state seen).size count
        (runWithin program limit budget state).1 := by
  induction budget generalizing taken state seen with
  | zero =>
      unfold runCounting
      exact ⟨taken, Nat.le_of_eq hbudget, if_pos hbudget, .inl hseen.symm⟩
  | succ budget ih =>
      unfold runCounting
      rw [if_neg (by omega), if_pos (by omega)]
      unfold runWithin step visitsWithin
      cases hfetch : program.get? state.counter with
      | none =>
          exact ⟨taken + 1,
            by omega, rfl, .inr ⟨⟨state.counter, rfl⟩, by rw [hseen]⟩⟩
      | some instruction =>
          have hcounter : state.counter < program.size :=
            (Array.getElem?_eq_some_iff.mp hfetch).1
          have hpushed :
              (seen.push ⟨state.counter, instruction, state.accumulator⟩).size =
              taken + 1 := by rw [Array.size_push, hseen]
          dsimp only
          rw [if_pos (Nat.lt_of_lt_of_le hcounter hsize)]
          cases execute state instruction with
          | next next => exact ih next (by omega) hpushed
          | halted final => exact ⟨taken + 1, by omega, rfl, .inl hpushed.symm⟩
          | failed fault final =>
              exact ⟨taken + 1, by omega, rfl, .inl hpushed.symm⟩

/-! ## Runs of a machine -/

/-- What is seen of a run: its result and the memory afterwards. -/
def answer (machine : Machine) (inputs : List Int32) :
    Except Fault (List Int32) × Array Int32 :=
  ((machine.run inputs).1, (machine.run inputs).2.memory)

theorem answer_eq (machine : Machine) (inputs : List Int32) :
    machine.answer inputs =
      ((runWithin machine.program machine.stepLimit machine.stepLimit
          (.start machine.program.memorySize inputs)).1,
        (runWithin machine.program machine.stepLimit machine.stepLimit
          (.start machine.program.memorySize inputs)).2.memory) := by
  rw [answer, run_result, run_memory]

/-- Whatever its program, a run that did not exceed its step limit gives the
same under a larger one, and a run that did not miss an input gives the same
with more inputs.  It takes no more steps than its limit, one for each
instruction that it visits, and neither these nor the addresses it reaches are
too large to be counted. -/
theorem runs_settle (machine : Machine) (inputs : List Int32) :
    ((machine.run inputs).1 ≠ .error (.stepLimitExceeded machine.stepLimit) →
      ∀ limit, machine.stepLimit ≤ limit →
        (machine.withStepLimit limit).answer inputs = machine.answer inputs) ∧
    ((∀ address, (machine.run inputs).1 ≠ .error (.inputExhausted address)) →
      ∀ more, machine.answer (inputs ++ more) = machine.answer inputs) ∧
    (machine.visits inputs).size ≤ machine.stepLimit ∧
    ∀ largest, machine.stepLimit ≤ largest → machine.program.size ≤ largest →
      ∃ count final, count ≤ machine.stepLimit ∧
        runCounting machine.program machine.stepLimit largest 0
          (machine.reset inputs) =
          some (count, (machine.run inputs).1, final) ∧
        final.memory = (machine.run inputs).2.memory ∧
        Counted (machine.visits inputs).size count (machine.run inputs).1 := by
  refine ⟨?steps, ?inputs, ?visits, ?counts⟩
  case steps =>
    intro hsettled limit hlimit
    rw [run_result] at hsettled
    rw [answer_eq, answer_eq, withStepLimit,
      runWithin_of_larger hsettled hlimit]
  case inputs =>
    intro hinput more
    rw [run_result] at hinput
    have hstart : State.start machine.program.memorySize (inputs ++ more) =
        (State.start machine.program.memorySize inputs).supply more := rfl
    rw [answer_eq, answer_eq, hstart, runWithin_supply hinput]
    rfl
  case visits =>
    have hsize := size_visitsWithin_le machine.program machine.stepLimit
      (machine.reset inputs) #[]
    rwa [Array.size_empty, Nat.zero_add] at hsize
  case counts =>
    intro largest hlimit hsize
    obtain ⟨count, hcount, hrun, hcounted⟩ := runCounting_eq hlimit hsize
      (machine.reset inputs) (Nat.zero_add machine.stepLimit) Array.size_empty
    exact ⟨count, _, hcount, hrun, rfl, hcounted⟩

/-- Puts out its first input, which it keeps in its only cell. -/
def echo : Machine :=
  .start ⟨#[.read 0, .load 0, .write, .halt], 1⟩ 4

theorem echo_settles :
    (∀ limit, 4 ≤ limit → (echo.withStepLimit limit).answer [7] =
      (.ok [7], #[7])) ∧
      (∀ more, echo.answer (7 :: more) = (.ok [7], #[7])) ∧
      ∃ count final, count ≤ 4 ∧
        runCounting echo.program 4 (UInt64.size - 1) 0 (echo.reset [7]) =
          some (count, .ok [7], final) := by
  obtain ⟨hsteps, hinputs, -, hcounts⟩ := runs_settle echo [7]
  have hanswer : echo.answer [7] = (.ok [7], #[7]) := answer_eq echo [7]
  have hrun : (echo.run [7]).1 = .ok [7] := congrArg Prod.fst hanswer
  rw [hrun] at hsteps hinputs hcounts
  rw [hanswer] at hsteps hinputs
  refine ⟨hsteps (by simp), hinputs (by simp), ?_⟩
  obtain ⟨count, final, hcount, hcounting, -⟩ :=
    hcounts (UInt64.size - 1) (by decide) (by decide)
  exact ⟨count, final, hcount, hcounting⟩

end TinyCompiler.Machine
