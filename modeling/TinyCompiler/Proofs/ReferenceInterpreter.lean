import TinyCompiler.Phrase

/-!
# The meaning of a program

An interpreter of programs that knows nothing of machines.  Operators work on
integers without bounds, and a result is brought back to 32 bits.  Each loop may
make at most `bound` rounds; a program that needs more is unfinished, and a
larger bound never changes the end of a program that has one.
-/

namespace TinyCompiler

/-- The result on integers without bounds: a quotient is cut toward zero, a
comparison gives 1 or 0, and there is none for a division by zero. -/
def Operator.exactResult? (operator : Operator) (left right : Int) :
    Option Int :=
  match operator with
  | .less => some (if left < right then 1 else 0)
  | .equal => some (if left = right then 1 else 0)
  | .plus => some (left + right)
  | .minus => some (left - right)
  | .times => some (left * right)
  | .over => if right = 0 then none else some (left.tdiv right)

/-- The value of an expression, if nothing in it is divided by zero. -/
def Expr.value? (store : String → Int32) : Expr α → Option Int32
  | .const _ value => some value
  | .var _ name => some (store name)
  | .op _ operator left right => do
      let leftValue ← left.value? store
      let rightValue ← right.value? store
      (operator.exactResult? leftValue.toInt rightValue.toInt).map Int32.ofInt

namespace Interpreter

structure State where
  store : String → Int32
  inputs : List Int32
  outputs : List Int32

def State.start (inputs : List Int32) : State where
  store := fun _ => 0
  inputs := inputs
  outputs := []

def State.assign (state : State) (name : String) (value : Int32) : State :=
  { state with store :=
    fun other => if other = name then value else state.store other }

inductive Fault where
  | divisionByZero
  | inputExhausted
  deriving DecidableEq, Repr

inductive Execution where
  | finished (state : State)
  | faulted (fault : Fault) (state : State)
  | unfinished

def Execution.andThen (execution : Execution) (next : State → Execution) :
    Execution :=
  match execution with
  | .finished state => next state
  | .faulted fault state => .faulted fault state
  | .unfinished => .unfinished

/-- Goes on with the value of an expression. -/
def evaluate (expr : Expr α) (state : State) (next : Int32 → Execution) :
    Execution :=
  match expr.value? state.store with
  | some value => next value
  | none => .faulted .divisionByZero state

/-- Rounds of a loop, until the test behind the body is not 0. -/
def rounds (body : State → Execution) (test : Expr α) : Nat → State → Execution
  | 0, _ => .unfinished
  | bound + 1, state =>
      (body state).andThen fun after =>
        evaluate test after fun value =>
          if value = 0 then rounds body test bound after else .finished after

end Interpreter

open Interpreter

mutual

def Stmt.interpret (bound : Nat) : Stmt α → State → Execution
  | .read _ name, state =>
      match state.inputs with
      | [] => .faulted .inputExhausted state
      | value :: rest =>
          .finished ({ state with inputs := rest }.assign name value)
  | .assign _ name value, state =>
      evaluate value state fun result => .finished (state.assign name result)
  | .write _ value, state =>
      evaluate value state fun result =>
        .finished { state with outputs := state.outputs ++ [result] }
  | .ifThen _ test thenPart, state =>
      evaluate test state fun result =>
        if result = 0 then .finished state else thenPart.interpret bound state
  | .ifElse _ test thenPart elsePart, state =>
      evaluate test state fun result =>
        if result = 0 then elsePart.interpret bound state
          else thenPart.interpret bound state
  | .repeatUntil _ body test, state =>
      rounds (body.interpret bound) test bound state

def Block.interpret (bound : Nat) : Block α → State → Execution
  | .nil, state => .finished state
  | .cons first rest, state =>
      (first.interpret bound state).andThen (rest.interpret bound)

end

/-! ## The end of a program -/

namespace Interpreter

/-- The first execution is unfinished or ends as the second one does. -/
def Execution.Approximates (execution other : Execution) : Prop :=
  execution = .unfinished ∨ execution = other

theorem Execution.Approximates.refl (execution : Execution) :
    execution.Approximates execution := .inr rfl

theorem Execution.Approximates.andThen {execution other : Execution}
    {next otherNext : State → Execution} (hfirst : execution.Approximates other)
    (hnext : ∀ state, (next state).Approximates (otherNext state)) :
    (execution.andThen next).Approximates (other.andThen otherNext) := by
  rcases hfirst with rfl | rfl
  · exact .inl rfl
  · cases execution with
    | finished state => exact hnext state
    | faulted fault state => exact .refl _
    | unfinished => exact .refl _

theorem evaluate_approximates (expr : Expr α) (state : State)
    {next otherNext : Int32 → Execution}
    (hnext : ∀ value, (next value).Approximates (otherNext value)) :
    (evaluate expr state next).Approximates
    (evaluate expr state otherNext) := by
  unfold evaluate
  cases expr.value? state.store with
  | some value => exact hnext value
  | none => exact .refl _

theorem rounds_approximates {body otherBody : State → Execution} (test : Expr α)
    (hbody : ∀ state, (body state).Approximates (otherBody state))
    {bound larger : Nat} (hle : bound ≤ larger) (state : State) :
    (rounds body test bound state).Approximates
    (rounds otherBody test larger state) := by
  induction bound generalizing larger state with
  | zero => exact .inl rfl
  | succ bound ih =>
      obtain ⟨smaller, rfl⟩ : ∃ smaller, larger = smaller + 1 :=
        ⟨larger - 1, by omega⟩
      refine (hbody state).andThen fun after =>
        evaluate_approximates test after fun value => ?_
      by_cases hzero : value = 0
      · rw [if_pos hzero, if_pos hzero]
        exact ih (Nat.le_of_succ_le_succ hle) after
      · rw [if_neg hzero, if_neg hzero]
        exact .refl _

end Interpreter

section Bound

variable {bound larger : Nat}

mutual

theorem Stmt.interpret_approximates (hle : bound ≤ larger) :
    ∀ (stmt : Stmt α) (state : State),
    (stmt.interpret bound state).Approximates (stmt.interpret larger state)
  | .read note name, state => .refl _
  | .assign note name value, state => .refl _
  | .write note value, state => .refl _
  | .ifThen note test thenPart, state => by
      refine evaluate_approximates test state fun result => ?_
      by_cases hzero : result = 0
      · rw [if_pos hzero, if_pos hzero]
        exact .refl _
      · rw [if_neg hzero, if_neg hzero]
        exact Block.interpret_approximates hle thenPart state
  | .ifElse note test thenPart elsePart, state => by
      refine evaluate_approximates test state fun result => ?_
      by_cases hzero : result = 0
      · rw [if_pos hzero, if_pos hzero]
        exact Block.interpret_approximates hle elsePart state
      · rw [if_neg hzero, if_neg hzero]
        exact Block.interpret_approximates hle thenPart state
  | .repeatUntil note body test, state =>
      rounds_approximates test (Block.interpret_approximates hle body) hle state

theorem Block.interpret_approximates (hle : bound ≤ larger) :
    ∀ (block : Block α) (state : State),
      (block.interpret bound state).Approximates (block.interpret larger state)
  | .nil, _ => .refl _
  | .cons first rest, state =>
      (Stmt.interpret_approximates hle first state).andThen
        (Block.interpret_approximates hle rest)

end

end Bound

namespace Block

/-- The program finishes on inputs in a state. -/
def Finishes (program : Block α) (inputs : List Int32) (final : State) : Prop :=
  ∃ bound, program.interpret bound (.start inputs) = .finished final

/-- The program is stopped by a fault in a state. -/
def FaultsIn (program : Block α) (inputs : List Int32) (fault : Fault)
    (final : State) : Prop :=
  ∃ bound, program.interpret bound (.start inputs) = .faulted fault final

/-- The program neither finishes nor faults. -/
def Diverges (program : Block α) (inputs : List Int32) : Prop :=
  ∀ bound, program.interpret bound (.start inputs) = .unfinished

/-- A program has one end at most, at whatever bound it is reached. -/
theorem interpret_unique {program : Block α} {state : State} {bound other : Nat}
    (hbound : program.interpret bound state ≠ .unfinished)
    (hother : program.interpret other state ≠ .unfinished) :
    program.interpret bound state = program.interpret other state := by
  have hlarger : ∀ {first second}, first ≤ second →
      program.interpret first state ≠ .unfinished →
        program.interpret first state = program.interpret second state := by
    intro first second hle hfirst
    exact (program.interpret_approximates hle state).resolve_left hfirst
  rcases Nat.le_total bound other with hle | hle
  · exact hlarger hle hbound
  · exact (hlarger hle hother).symm

end Block
end TinyCompiler
