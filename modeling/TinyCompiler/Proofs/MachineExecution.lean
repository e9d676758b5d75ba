import TinyCompiler.Machine

/-!
# Execution of code in a program

Code stands at an address of a program, and the machine takes a number of steps
from one state to another.  A budget above that number lets a run pass from the
first state to the second; a budget below it ends the run at its step limit.
-/

namespace TinyCompiler

/-- The code stands in the program from an address on. -/
def Program.CodeAt (program : Program) (address : Nat)
    (code : List Instruction) : Prop :=
  ∃ before after,
    program.code.toList = before ++ code ++ after ∧ address = before.length

namespace Program.CodeAt

variable {program : Program} {address : Nat} {instruction : Instruction}
  {code first second : List Instruction}

theorem fetch (hcode : program.CodeAt address (instruction :: code)) :
    program.get? address = some instruction := by
  obtain ⟨before, after, hlist, rfl⟩ := hcode
  unfold Program.get?
  rw [← Array.getElem?_toList, hlist]
  simp

theorem left (hcode : program.CodeAt address (first ++ second)) :
    program.CodeAt address first := by
  obtain ⟨before, after, hlist, rfl⟩ := hcode
  exact ⟨before, second ++ after, by simp [hlist], rfl⟩

theorem right (hcode : program.CodeAt address (first ++ second)) :
    program.CodeAt (address + first.length) second := by
  obtain ⟨before, after, hlist, rfl⟩ := hcode
  exact ⟨before ++ first, after, by simp [hlist], by simp⟩

theorem tail (hcode : program.CodeAt address (instruction :: code)) :
    program.CodeAt (address + 1) code := by
  change program.CodeAt address ([instruction] ++ code) at hcode
  exact right hcode

theorem mem (hcode : program.CodeAt address code) (hmem : instruction ∈ code) :
    instruction ∈ program.code.toList := by
  obtain ⟨before, after, hlist, -⟩ := hcode
  rw [hlist]
  simp [hmem]

end Program.CodeAt

namespace Machine

variable {program : Program}

/-- The machine gets from one state to another in a number of steps. -/
inductive Steps (program : Program) : Nat → State → State → Prop where
  | refl (state : State) : Steps program 0 state state
  | head {count : Nat} {state middle final : State} :
      step program state = .next middle → Steps program count middle final →
        Steps program (count + 1) state final

theorem Steps.single {state final : State}
    (hstep : step program state = .next final) :
    Steps program 1 state final :=
  .head hstep (.refl final)

theorem Steps.trans {count more : Nat} {state middle final : State}
    (hfirst : Steps program count state middle)
    (hsecond : Steps program more middle final) :
    Steps program (count + more) state final := by
  induction hfirst with
  | refl state => rwa [Nat.zero_add]
  | head hstep _ ih =>
      rw [Nat.add_right_comm]
      exact .head hstep (ih hsecond)

theorem Steps.runWithin_eq {count : Nat} {state final : State}
    (hsteps : Steps program count state final) (limit budget : Nat) :
    runWithin program limit (count + budget) state =
      runWithin program limit budget final := by
  induction hsteps with
  | refl state => rw [Nat.zero_add]
  | head hstep _ ih =>
      rw [Nat.add_right_comm, runWithin, hstep]
      exact ih

theorem Steps.runWithin_exceeds {count : Nat} {state final : State}
    (hsteps : Steps program count state final) (limit : Nat) {budget : Nat}
    (hbudget : budget ≤ count) :
    (runWithin program limit budget state).1 = .error
    (.stepLimitExceeded limit) := by
  induction hsteps generalizing budget with
  | refl state =>
      obtain rfl := Nat.le_zero.mp hbudget
      rfl
  | head hstep _ ih =>
      cases budget with
      | zero => rfl
      | succ budget =>
          rw [runWithin, hstep]
          exact ih (Nat.le_of_succ_le_succ hbudget)

theorem Steps.runWithin_of_halted {count : Nat} {state final last : State}
    (hsteps : Steps program count state final)
    (hhalted : step program final = .halted last) (limit : Nat) {budget : Nat}
    (hbudget : count < budget) :
    runWithin program limit budget state = (.ok last.outputs, last) := by
  obtain ⟨left, rfl⟩ := Nat.exists_eq_add_of_lt hbudget
  rw [Nat.add_assoc, hsteps.runWithin_eq, runWithin, hhalted]

theorem Steps.runWithin_of_failed {count : Nat} {state final last : State}
    {fault : Fault} (hsteps : Steps program count state final)
    (hfailed : step program final = .failed fault last) (limit : Nat)
    {budget : Nat} (hbudget : count < budget) :
    runWithin program limit budget state = (.error fault, last) := by
  obtain ⟨left, rfl⟩ := Nat.exists_eq_add_of_lt hbudget
  rw [Nat.add_assoc, hsteps.runWithin_eq, runWithin, hfailed]

theorem step_eq_execute {state : State} {instruction : Instruction}
    (hfetch : program.get? state.counter = some instruction) :
    step program state = execute state instruction := by
  unfold step
  rw [hfetch]

end Machine
end TinyCompiler
