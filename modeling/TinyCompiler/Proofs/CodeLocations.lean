import TinyCompiler.Proofs.CodeLayout
import TinyCompiler.Proofs.PhraseNotes

/-!
# Locations in the layout of code

The code of a phrase mentions the locations of its variables and, from the first
free cell on, as many scratch cells as it has in use at its peak.  There are no
gaps: an operation whose right operand has to be computed keeps two values, and
one of them stays while that operand is computed in the cells above it.
-/

namespace TinyCompiler

namespace Operand

def locations : Operand → List Nat
  | .immediate _ => []
  | .memory location => [location]

end Operand

namespace Instruction

/-- The memory locations that an instruction mentions. -/
def locations : Instruction → List Nat
  | .load location | .store location | .read location => [location]
  | .operate _ operand => operand.locations
  | _ => []

end Instruction

namespace Expr

def isLeaf : Expr α → Bool
  | .const _ _ | .var _ _ => true
  | .op _ _ _ _ => false

/-- How many scratch cells the code of an expression uses. -/
def need : Expr α → Nat
  | .const _ _ => 0
  | .var _ _ => 0
  | .op _ _ left right =>
      if right.isLeaf then left.need else max left.need (max 2 (1 + right.need))

theorem need_op_op (note : α) (operator : Operator) (left : Expr α)
    (innerNote : α) (inner : Operator) (first second : Expr α) :
    (op note operator left (op innerNote inner first second)).need =
      max left.need (max 2 (1 + (op innerNote inner first second).need)) := rfl

-- A peak is noted when a cell is taken, so the depth alone does not show in it.
theorem peak_eq (expr : Expr α) (depth : Nat) :
    expr.peak depth = if expr.need = 0 then 0 else depth + expr.need := by
  induction expr generalizing depth with
  | const note value => rfl
  | var note name => rfl
  | op note operator left right ihLeft ihRight =>
      cases right with
      | const note value => simp [peak, operandPeak, need, isLeaf, ihLeft]
      | var note name => simp [peak, operandPeak, need, isLeaf, ihLeft]
      | op note operator first second =>
          rw [peak, operandPeak, ihLeft, ihRight, need_op_op]
          split <;> split <;> split <;> omega

theorem peak_zero (expr : Expr α) : expr.peak 0 = expr.need := by
  rw [peak_eq, Nat.zero_add]
  split <;> omega

end Expr

/-! ## Mentioned locations -/

/-- Some instruction of the code mentions the location. -/
def Mentions (code : List Instruction) (location : Nat) : Prop :=
  ∃ instruction ∈ code, location ∈ instruction.locations

section Mentions

variable {first second : List Instruction} {instruction : Instruction}
  {location : Nat}

@[simp] theorem mentions_nil : ¬ Mentions [] location := by
  simp [Mentions]

@[simp] theorem mentions_append :
    Mentions (first ++ second) location ↔
      Mentions first location ∨ Mentions second location := by
  simp only [Mentions, List.mem_append, or_and_right, exists_or]

@[simp] theorem mentions_cons :
    Mentions (instruction :: first) location ↔
      location ∈ instruction.locations ∨ Mentions first location := by
  simp [Mentions]

end Mentions

/-- The code mentions the given locations and, from a cell on, a number of
others. -/
def Occupies (scratch : Nat) (code : List Instruction) (given : List Nat)
    (count : Nat) : Prop :=
  ∀ location, Mentions code location ↔
    location ∈ given ∨ (scratch ≤ location ∧ location < scratch + count)

section Occupies

variable {scratch count more : Nat} {first second : List Instruction}
  {given others : List Nat}

theorem Occupies.append (hfirst : Occupies scratch first given count)
    (hsecond : Occupies scratch second others more) :
    Occupies scratch (first ++ second) (given ++ others) (max count more) := by
  intro location
  rw [mentions_append, hfirst location, hsecond location, List.mem_append]
  grind

theorem occupies_nil (scratch : Nat) : Occupies scratch [] [] 0 := by
  intro location
  grind [mentions_nil]

theorem occupies_singleton (scratch : Nat) (instruction : Instruction) :
    Occupies scratch [instruction] instruction.locations 0 := by
  intro location
  rw [mentions_cons]
  simp only [mentions_nil, or_false]
  grind

theorem Occupies.swap (hcode : Occupies scratch first (given ++ others) count) :
    Occupies scratch first (others ++ given) count := by
  intro location
  rw [hcode location, List.mem_append, List.mem_append,
    @or_comm (location ∈ given)]

theorem Occupies.cons (hcode : Occupies scratch first given count)
    {instruction : Instruction} (hnone : instruction.locations = []) :
    Occupies scratch (instruction :: first) given count := by
  intro location
  rw [mentions_cons, hnone, hcode location]
  simp

theorem Occupies.concat (hcode : Occupies scratch first given count)
    {instruction : Instruction} (hnone : instruction.locations = []) :
    Occupies scratch (first ++ [instruction]) given count := by
  intro location
  rw [mentions_append, mentions_cons, hnone, hcode location]
  simp

end Occupies

section Layout

variable (locate : String → Nat)

theorem Expr.code_occupies (expr : Expr α) (scratch : Nat) :
    Occupies scratch (expr.code locate scratch) (expr.names.map locate)
      expr.need := by
  induction expr generalizing scratch with
  | const note value => exact occupies_singleton scratch _
  | var note name => exact occupies_singleton scratch _
  | op note operator left right ihLeft ihRight =>
      rw [Expr.code, Expr.names, List.map_append]
      cases right with
      | const note value =>
          have hall := (ihLeft scratch).append
            (occupies_singleton scratch (.operate operator (.immediate value)))
          rwa [Nat.max_zero] at hall
      | var note name =>
          have hall := (ihLeft scratch).append
            (occupies_singleton scratch
              (.operate operator (.memory (locate name))))
          rwa [Nat.max_zero] at hall
      | op note operator first second =>
          -- The first cell keeps the left value while the right one is computed
          -- in the cells above it; then the second cell takes the right value.
          rw [need_op_op]
          refine (ihLeft scratch).append fun location => ?_
          have hright := ihRight (scratch + 1) location
          simp only [Expr.operandCode, Expr.operand, List.cons_append,
            mentions_cons, mentions_append, mentions_nil, hright,
            Instruction.locations, Operand.locations,
            List.mem_singleton]
          grind

mutual

theorem Stmt.code_occupies (scratch : Nat) : ∀ (stmt : Stmt α) (base : Nat),
    Occupies scratch (stmt.code locate scratch base)
      (stmt.names.map locate) (stmt.peak 0)
  | .read note name, base => occupies_singleton scratch _
  | .assign note name value, base => by
      have hall := (value.code_occupies locate scratch).append
        (occupies_singleton scratch (.store (locate name)))
      rw [Nat.max_zero, ← value.peak_zero] at hall
      exact hall.swap
  | .write note value, base => by
      have hvalue := value.code_occupies locate scratch
      rw [← value.peak_zero] at hvalue
      exact hvalue.concat rfl
  | .ifThen note test thenPart, base => by
      have htest := test.code_occupies locate scratch
      rw [← test.peak_zero] at htest
      rw [Stmt.names, List.map_append]
      exact htest.append ((Block.code_occupies scratch thenPart _).cons rfl)
  | .ifElse note test thenPart elsePart, base => by
      have htest := test.code_occupies locate scratch
      rw [← test.peak_zero] at htest
      rw [Stmt.names, List.map_append, List.map_append, List.append_assoc]
      exact htest.append (((Block.code_occupies scratch thenPart _).append
        ((Block.code_occupies scratch elsePart _).cons rfl)).cons rfl)
  | .repeatUntil note body test, base => by
      have htest := test.code_occupies locate scratch
      rw [← test.peak_zero] at htest
      rw [Stmt.names, List.map_append]
      exact (Block.code_occupies scratch body base).append (htest.concat rfl)

theorem Block.code_occupies (scratch : Nat) : ∀ (block : Block α) (base : Nat),
    Occupies scratch (block.code locate scratch base) (block.names.map locate)
      (block.peak 0)
  | .nil, base => occupies_nil scratch
  | .cons first rest, base => by
      rw [Block.names, List.map_append]
      exact (Stmt.code_occupies scratch first base).append
        (Block.code_occupies scratch rest _)

end

end Layout

theorem Program.ofBlock_occupies (symbols : SymbolTable) (block : Block α) :
    Occupies symbols.size (Program.ofBlock symbols block).code.toList
      (block.names.map symbols.locate) (block.peak 0) := by
  have hcode := block.code_occupies symbols.locate symbols.size 0
  exact hcode.concat rfl

end TinyCompiler
