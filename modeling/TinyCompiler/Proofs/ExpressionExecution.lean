import TinyCompiler.Proofs.CodeLocations
import TinyCompiler.Proofs.MachineExecution
import TinyCompiler.Proofs.ReferenceInterpreter

/-!
# Execution of expression code

The code of an expression leaves its value in the accumulator, or comes to a
division by zero in it if the expression has none.  Either way it changes no
memory cell below its first scratch cell, so the variables and the operands that
wait for it keep their values.
-/

namespace TinyCompiler

/-- Operations on 32 bits are operations on integers without bounds whose result
is brought back to 32 bits. -/
theorem Operator.result?_eq_exactResult? (operator : Operator)
    (left right : Int32) :
    operator.result? left right =
      (operator.exactResult? left.toInt right.toInt).map Int32.ofInt := by
  cases operator with
  | less =>
      simp only [result?, exactResult?, Int32.lt_iff_toInt_lt, Option.map_some,
        Option.some.injEq]
      split <;> rfl
  | equal =>
      simp only [result?, exactResult?, Int32.toInt_inj, Option.map_some,
        Option.some.injEq]
      split <;> rfl
  | plus => simp [result?, exactResult?]
  | minus => simp [result?, exactResult?]
  | times => simp [result?, exactResult?]
  | «over» =>
      have hzero : right.toInt = 0 ↔ right = 0 := by
        rw [← Int32.toInt_zero, Int32.toInt_inj]
      have hquotient : left / right =
          Int32.ofInt (left.toInt.tdiv right.toInt) := by
        rw [← Int32.toInt_inj, Int32.toInt_div, Int32.toInt_ofInt]
      simp only [result?, exactResult?, hzero, hquotient]
      split <;> rfl

theorem Expr.value?_op (store : String → Int32) (note : α) (operator : Operator)
    (left right : Expr α) :
    (Expr.op note operator left right).value? store =
      (left.value? store).bind fun leftValue =>
        (right.value? store).bind fun rightValue =>
          operator.result? leftValue rightValue := by
  simp only [Operator.result?_eq_exactResult?]
  rfl

namespace Machine

/-- The states have the same inputs, outputs and memory cells below a limit. -/
structure State.SameBelow (limit : Nat) (state other : State) : Prop where
  size : other.memory.size = state.memory.size
  cell : ∀ location < limit, other.memory[location]? = state.memory[location]?
  inputs : other.inputs = state.inputs
  written : other.written = state.written

namespace State.SameBelow

variable {limit lower : Nat} {state middle final : State}

theorem refl (limit : Nat) (state : State) : state.SameBelow limit state :=
  ⟨rfl, fun _ _ => rfl, rfl, rfl⟩

theorem trans (hfirst : state.SameBelow limit middle)
    (hsecond : middle.SameBelow limit final) :
    state.SameBelow limit final where
  size := hsecond.size.trans hfirst.size
  cell location hlocation :=
    (hsecond.cell location hlocation).trans (hfirst.cell location hlocation)
  inputs := hsecond.inputs.trans hfirst.inputs
  written := hsecond.written.trans hfirst.written

theorem mono (hsame : state.SameBelow limit final) (hle : lower ≤ limit) :
    state.SameBelow lower final :=
  { hsame with
    cell := fun location hlocation =>
      hsame.cell location (Nat.lt_of_lt_of_le hlocation hle) }

end State.SameBelow

theorem State.sameBelow_put {limit location : Nat} (state : State)
    (value : Int32) (hlocation : limit ≤ location) :
    state.SameBelow limit { state with
      counter := state.counter + 1
      memory := state.memory.set! location value } := by
  refine ⟨by simp, fun other hother => ?_, rfl, rfl⟩
  have hne : location ≠ other := by omega
  simp [hne]

/-- The memory has every cell that the code mentions. -/
def State.Covers (state : State) (code : List Instruction) : Prop :=
  ∀ location, Mentions code location → location < state.memory.size

namespace State.Covers

variable {limit : Nat} {state final : State} {first second : List Instruction}
  {instruction : Instruction}

theorem left (hcovers : state.Covers (first ++ second)) : state.Covers first :=
  fun location hfirst => hcovers location (mentions_append.mpr (.inl hfirst))

theorem right (hcovers : state.Covers (first ++ second)) :
    state.Covers second :=
  fun location hsecond => hcovers location (mentions_append.mpr (.inr hsecond))

theorem tail (hcovers : state.Covers (instruction :: first)) :
    state.Covers first :=
  fun location hfirst => hcovers location (mentions_cons.mpr (.inr hfirst))

theorem sameBelow (hcovers : state.Covers first)
    (hsame : state.SameBelow limit final) :
    final.Covers first := by
  intro location hfirst
  rw [hsame.size]
  exact hcovers location hfirst

end State.Covers

theorem step_put {program : Program} {state : State} {location : Nat}
    (hfetch : program.get? state.counter = some (.store location))
    (hlocation : location < state.memory.size) :
    step program state = .next { state with
      counter := state.counter + 1
      memory := state.memory.set! location state.accumulator } := by
  rw [step_eq_execute hfetch, execute, State.put, if_pos hlocation]

theorem step_load {program : Program} (state : State) {location : Nat}
    {value : Int32}
    (hfetch : program.get? state.counter = some (.load location))
    (hvalue : state.memory[location]? = some value) :
    step program state =
      .next { state with counter :=
        state.counter + 1, accumulator := value } := by
  rw [step_eq_execute hfetch]
  simp only [execute, State.operand, hvalue, State.accumulate]

/-- The machine comes to an address with a value in the accumulator; without a
value it comes to a division by zero at an instruction before that address. -/
def Evaluates (program : Program) (scratch : Nat) (state : State)
    (address : Nat) :
    Option Int32 → Prop
  | some value => ∃ count final, Steps program count state final ∧
      state.SameBelow scratch final ∧ final.counter = address ∧
        final.accumulator = value
  | none => ∃ count final, Steps program count state final ∧
      state.SameBelow scratch final ∧
      (state.counter ≤ final.counter ∧ final.counter < address) ∧
      step program final = .failed (.divisionByZero final.counter) final

/-- The machine comes to an address with the accumulator unchanged and the value
of an operand at hand; without a value it comes to a division by zero. -/
def Provides (program : Program) (scratch : Nat) (state : State) (address : Nat)
    (operand : Operand) : Option Int32 → Prop
  | some value => ∃ count final, Steps program count state final ∧
      state.SameBelow scratch final ∧ final.counter = address ∧
      final.accumulator = state.accumulator ∧ final.operand operand = .ok value
  | none => Evaluates program scratch state address none

section Evaluates

variable {program : Program} {scratch lower count address further : Nat}
  {state middle : State} {operator : Operator} {operand : Operand}
  {value : Int32} {result : Option Int32}

theorem Evaluates.after
    (heval : Evaluates program scratch middle address result)
    (hsteps : Steps program count state middle)
    (hsame : state.SameBelow scratch middle)
    (hcounter : state.counter ≤ middle.counter) :
    Evaluates program scratch state address result := by
  cases result with
  | some value =>
      obtain ⟨more, final, hmore, hfinal, hreached, hvalue⟩ := heval
      exact ⟨count + more, final, hsteps.trans hmore, hsame.trans hfinal,
        hreached, hvalue⟩
  | none =>
      obtain ⟨more, final, hmore, hfinal, ⟨hlow, hhigh⟩, hfault⟩ := heval
      exact ⟨count + more, final, hsteps.trans hmore, hsame.trans hfinal,
        ⟨Nat.le_trans hcounter hlow, hhigh⟩, hfault⟩

theorem Evaluates.mono (heval : Evaluates program scratch state address result)
    (hle : lower ≤ scratch) : Evaluates program lower state address result := by
  cases result with
  | some value =>
      obtain ⟨count, final, hsteps, hfinal, hrest⟩ := heval
      exact ⟨count, final, hsteps, hfinal.mono hle, hrest⟩
  | none =>
      obtain ⟨count, final, hsteps, hfinal, hfault⟩ := heval
      exact ⟨count, final, hsteps, hfinal.mono hle, hfault⟩

/-- A division by zero before an address is also one before a later address. -/
theorem Evaluates.before (heval : Evaluates program scratch state address none)
    (hle : address ≤ further) :
    Evaluates program scratch state further none := by
  obtain ⟨count, final, hsteps, hfinal, ⟨hlow, hhigh⟩, hfault⟩ := heval
  exact ⟨count, final, hsteps, hfinal,
    ⟨hlow, Nat.lt_of_lt_of_le hhigh hle⟩, hfault⟩

theorem evaluates_loadImmediate
    (hfetch : program.get? state.counter = some (.loadImmediate value)) :
    Evaluates program scratch state (state.counter + 1) (some value) :=
  ⟨1, _, .single (step_eq_execute hfetch),
    ⟨rfl, fun _ _ => rfl, rfl, rfl⟩, rfl, rfl⟩

theorem evaluates_load {location : Nat}
    (hfetch : program.get? state.counter = some (.load location))
    (hvalue : state.memory[location]? = some value) :
    Evaluates program scratch state (state.counter + 1) (some value) :=
  ⟨1, _, .single (step_load state hfetch hvalue),
    ⟨rfl, fun _ _ => rfl, rfl, rfl⟩, rfl, rfl⟩

theorem evaluates_operate (scratch : Nat)
    (hfetch : program.get? state.counter = some (.operate operator operand))
    (hvalue : state.operand operand = .ok value) :
    Evaluates program scratch state (state.counter + 1)
      (operator.result? state.accumulator value) := by
  have hstep := step_eq_execute hfetch
  cases hresult : operator.result? state.accumulator value with
  | some result =>
      simp only [execute, hvalue, hresult, State.accumulate] at hstep
      exact ⟨1, _, .single hstep, ⟨rfl, fun _ _ => rfl, rfl, rfl⟩, rfl, rfl⟩
  | none =>
      simp only [execute, hvalue, hresult] at hstep
      exact ⟨0, state, .refl state, .refl scratch state,
        ⟨Nat.le_refl _, Nat.lt_succ_self _⟩, hstep⟩

end Evaluates

/-- Variables have cells below the scratch cells that hold their values. -/
def State.Stores (locate : String → Nat) (scratch : Nat)
    (store : String → Int32) (names : List String) (state : State) : Prop :=
  ∀ name ∈ names,
    locate name < scratch ∧ state.memory[locate name]? = some (store name)

theorem State.Stores.sameBelow {locate : String → Nat} {scratch : Nat}
    {store : String → Int32} {names : List String} {state final : State}
    (hstores : state.Stores locate scratch store names)
    (hsame : state.SameBelow scratch final) :
    final.Stores locate scratch store names := by
  intro name hname
  obtain ⟨hbelow, hcell⟩ := hstores name hname
  exact ⟨hbelow, (hsame.cell _ hbelow).trans hcell⟩

end Machine

section Code

variable {locate : String → Nat} {store : String → Int32} {program : Program}

open Machine

/-- The accumulator is put aside in the first scratch cell while the code of an
operand runs, and taken back after it. -/
theorem provides_spilled {scratch : Nat} {state : State}
    {code : List Instruction} (result : Option Int32)
    (hcode : program.CodeAt state.counter
      (.store scratch :: (code ++ [.store (scratch + 1), .load scratch])))
    (hcovers : state.Covers
      (.store scratch :: (code ++ [.store (scratch + 1), .load scratch])))
    (heval : ∀ next : State, next.counter = state.counter + 1 →
      state.SameBelow scratch next →
        next.memory[scratch]? = some state.accumulator →
        Evaluates program (scratch + 1)
          next (state.counter + 1 + code.length) result) :
    Provides program scratch state (state.counter + (code.length + 3))
      (.memory (scratch + 1)) result := by
  have hscratch := hcovers scratch (by simp [Instruction.locations])
  have hnext := hcovers (scratch + 1) (by simp [Instruction.locations])
  have hput := Steps.single (step_put hcode.fetch hscratch)
  have hsame := state.sameBelow_put state.accumulator (Nat.le_refl scratch)
  have hinner := heval _ rfl hsame (by simp [hscratch])
  cases result with
  | none =>
      refine ((hinner.mono (Nat.le_succ scratch)).after hput hsame
        (Nat.le_succ _)).before ?_
      omega
  | some value =>
      obtain ⟨count, middle, hsteps, hmiddle, hcounter, hvalue⟩ := hinner
      have hrest : program.CodeAt middle.counter
          [.store (scratch + 1), .load scratch] := by
        rw [hcounter]
        exact hcode.tail.right
      have hsizeMiddle : middle.memory.size = state.memory.size :=
        hmiddle.size.trans hsame.size
      have hstored := Steps.single (step_put hrest.fetch (by rwa [hsizeMiddle]))
      have hwaiting :
          (middle.memory.set! (scratch + 1) middle.accumulator)[scratch]? =
          some state.accumulator := by
        have hcell := hmiddle.cell scratch (Nat.lt_succ_self scratch)
        simp only [Array.set!_eq_setIfInBounds] at hcell ⊢
        rw [Array.getElem?_setIfInBounds_ne (by omega), hcell]
        simp [hscratch]
      have hloaded := Steps.single (step_load { middle with
        counter := middle.counter + 1
        memory := middle.memory.set! (scratch + 1) middle.accumulator }
          hrest.tail.fetch hwaiting)
      have hkept :=
        middle.sameBelow_put middle.accumulator (Nat.le_succ scratch)
      refine ⟨_, _, ((hput.trans hsteps).trans hstored).trans hloaded,
        ?_, ?_, rfl, ?_⟩
      · exact (hsame.trans (hmiddle.mono (Nat.le_succ scratch))).trans
          ⟨hkept.size, hkept.cell, rfl, rfl⟩
      · simp only [hcounter]
        omega
      · simp [State.operand, hsizeMiddle, hnext, hvalue]

/-- The code in front of an operator makes its right operand available. -/
theorem Expr.operandCode_provides (expr : Expr α) {scratch : Nat}
    {state : State} {code : List Instruction}
    (hcode : program.CodeAt state.counter (expr.operandCode code scratch))
    (hcovers : state.Covers (expr.operandCode code scratch))
    (hstores : state.Stores locate scratch store expr.names)
    (heval : ∀ next : State,
        program.CodeAt next.counter code → next.Covers code →
        next.Stores locate (scratch + 1) store expr.names →
          Evaluates program (scratch + 1) next (next.counter + code.length)
            (expr.value? store)) :
    Provides program scratch state
      (state.counter + (expr.operandCode code scratch).length)
      (expr.operand locate scratch) (expr.value? store) := by
  cases expr with
  | const note value =>
      exact ⟨0, state, .refl state, .refl scratch state, rfl, rfl, rfl⟩
  | var note name =>
      obtain ⟨-, hcell⟩ := hstores name (by simp [Expr.names])
      refine ⟨0, state, .refl state, .refl scratch state, rfl, rfl, ?_⟩
      simp only [Expr.operand, State.operand, hcell]
  | op note operator left right =>
      have hspilled := provides_spilled
        ((Expr.op note operator left right).value? store) hcode hcovers (by
          intro next hcounter hsame hwaiting
          have hnext := heval next (by rw [hcounter]; exact hcode.tail.left)
            (hcovers.tail.left.sameBelow hsame) (by
              intro name hname
              obtain ⟨hbelow, hcell⟩ := hstores.sameBelow hsame name hname
              exact ⟨Nat.lt_succ_of_lt hbelow, hcell⟩)
          rwa [hcounter] at hnext)
      simpa [Expr.operandCode, Expr.operand] using hspilled

/-- The code of an expression gives its value or comes to a division by zero. -/
theorem Expr.code_evaluates (expr : Expr α) {scratch : Nat} {state : State}
    (hcode : program.CodeAt state.counter (expr.code locate scratch))
    (hcovers : state.Covers (expr.code locate scratch))
    (hstores : state.Stores locate scratch store expr.names) :
    Evaluates program scratch state
      (state.counter + (expr.code locate scratch).length)
        (expr.value? store) := by
  induction expr generalizing scratch state with
  | const note value => exact evaluates_loadImmediate hcode.fetch
  | var note name =>
      obtain ⟨-, hcell⟩ := hstores name (by simp [Expr.names])
      exact evaluates_load hcode.fetch hcell
  | op note operator left right ihLeft ihRight =>
      have hleftStores : state.Stores locate scratch store left.names :=
        fun name hname => hstores name (by simp [Expr.names, hname])
      have hrightStores : state.Stores locate scratch store right.names :=
        fun name hname => hstores name (by simp [Expr.names, hname])
      have hleft := ihLeft hcode.left hcovers.left hleftStores
      rw [Expr.value?_op]
      cases hleftValue : left.value? store with
      | none =>
          rw [hleftValue] at hleft
          exact hleft.before (by simp [Expr.code])
      | some leftValue =>
          rw [hleftValue] at hleft
          obtain ⟨count, middle, hsteps, hmiddle, hcounter, hvalue⟩ := hleft
          have hmiddleCode := hcode.right
          rw [← hcounter] at hmiddleCode
          have hright := right.operandCode_provides hmiddleCode.left
            (hcovers.right.left.sameBelow hmiddle)
              (hrightStores.sameBelow hmiddle)
            (fun next hnext hnextCovers hnextStores =>
              ihRight hnext hnextCovers hnextStores)
          refine Evaluates.after ?_ hsteps hmiddle (by omega)
          cases hrightValue : right.value? store with
          | none =>
              rw [hrightValue] at hright
              exact hright.before (by simp [hcounter, Expr.code]; omega)
          | some rightValue =>
              rw [hrightValue] at hright
              obtain ⟨more, final, hmore, hfinal, hreached, hkept, hoperand⟩ :=
                hright
              have hoperate := hmiddleCode.right
              rw [← hreached] at hoperate
              have hresult := evaluates_operate scratch hoperate.fetch hoperand
              rw [hkept, hvalue, hreached, hcounter] at hresult
              refine Evaluates.after ?_ hmore hfinal (by omega)
              simpa [Expr.code, Nat.add_assoc] using hresult

end Code

end TinyCompiler
