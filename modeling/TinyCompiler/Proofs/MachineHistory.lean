import TinyCompiler.Machine

/-!
# Runs one after the other

What a run leaves in the memory and in the registers does not reach the next run
on the same machine.  That one sets every cell back, and there are as many cells
as on a new machine, because no run changes their number, wherever it stops.
-/

namespace TinyCompiler.Machine

/-- The machine after runs on these inputs, one run after the other. -/
def after (machine : Machine) (history : List (List Int32)) : Machine :=
  history.foldl (fun machine inputs => (machine.run inputs).2) machine

@[simp] theorem after_nil (machine : Machine) :
    machine.after [] = machine := rfl

@[simp] theorem after_cons (machine : Machine) (inputs : List Int32)
    (history : List (List Int32)) :
    machine.after (inputs :: history) =
      (machine.run inputs).2.after history := rfl

section After

variable (machine : Machine) (history : List (List Int32))

theorem program_after : (machine.after history).program = machine.program := by
  induction history generalizing machine with
  | nil => rfl
  | cons inputs history ih => exact ih (machine.run inputs).2

theorem stepLimit_after :
    (machine.after history).stepLimit = machine.stepLimit := by
  induction history generalizing machine with
  | nil => rfl
  | cons inputs history ih => exact ih (machine.run inputs).2

end After

section Fresh

variable {machine other : Machine}

theorem reset_eq_reset (hprogram : machine.program = other.program)
    (inputs : List Int32) :
    machine.reset inputs = other.reset inputs := by
  rw [reset_eq, reset_eq, hprogram]

/-- A run depends on the program and the step limit only, not on what is left in
the machine. -/
theorem run_eq_run (hprogram : machine.program = other.program)
    (hlimit : machine.stepLimit = other.stepLimit) (inputs : List Int32) :
    machine.run inputs = other.run inputs := by
  have hreset := reset_eq_reset hprogram inputs
  obtain ⟨program, stepLimit, memory, accumulator, counter, hmemory⟩ := machine
  obtain ⟨program, stepLimit, leftMemory, leftAccumulator, leftCounter,
    hleft⟩ := other
  obtain rfl := hprogram
  obtain rfl := hlimit
  simp only [run, hreset]

theorem visits_eq_visits (hprogram : machine.program = other.program)
    (hlimit : machine.stepLimit = other.stepLimit) (inputs : List Int32) :
    machine.visits inputs = other.visits inputs := by
  rw [visits, visits, reset_eq_reset hprogram, hprogram, hlimit]

end Fresh

/-- After any runs, however they ended, the next run of a machine executes and
gives what it does on a new machine with the same step limit, and leaves the
machine in the same state.  The memory has the size that the program asks for
before and after it. -/
theorem runs_start_fresh (machine : Machine) (history : List (List Int32))
    (inputs : List Int32) :
    (machine.after history).run inputs =
        (Machine.start machine.program machine.stepLimit).run inputs ∧
      (machine.after history).visits inputs =
        (Machine.start machine.program machine.stepLimit).visits inputs ∧
      (machine.after history).memory.size = machine.program.memorySize ∧
      ((machine.after history).run inputs).2.memory.size =
        machine.program.memorySize := by
  have hprogram : (machine.after history).program =
      (Machine.start machine.program machine.stepLimit).program :=
        machine.program_after history
  have hlimit : (machine.after history).stepLimit =
      (Machine.start machine.program machine.stepLimit).stepLimit :=
    machine.stepLimit_after history
  refine ⟨run_eq_run hprogram hlimit inputs,
    visits_eq_visits hprogram hlimit inputs, ?_, ?_⟩
  · rw [size_memory, hprogram]
    rfl
  · rw [run_eq_run hprogram hlimit, size_memory]
    rfl

end TinyCompiler.Machine
