import TinyCompiler.Instruction
import TinyCompiler.SymbolTable
import TinyCompiler.Tree.Fault

/-!
# The state of a generator

A generator appends instructions.  A jump forward is emitted without its target
and is pending until the target is filled in; nothing else that has been emitted
ever changes.  Above the cells of the variables a generator reserves scratch
cells and releases them in reverse order, and the largest number in use at once
decides how much memory the program needs.  A generator that fails keeps what it
has emitted and reserved.
-/

namespace TinyCompiler

inductive GenerationError where
  | unknownVariable (name : String) (line : Nat)
  | unanalyzedExpression (line : Nat)
  | notAJump (address : Nat)
  | unpatchedJump (address : Nat)
  /-- The tree itself cannot be walked. -/
  | malformed (fault : Tree.Fault)
  deriving DecidableEq, Repr

def GenerationError.message : GenerationError → String
  | .unknownVariable name line =>
      "variable " ++ Text.quoted name ++
        " was never resolved during analysis (line " ++
        toString line ++ ")"
  | .unanalyzedExpression line =>
      "expression at line " ++ toString line ++
        " has no type; was the tree analyzed?"
  | .notAJump address =>
      "instruction at address " ++ toString address ++
        " is not a jump placeholder"
  | .unpatchedJump address =>
      "jump placeholder at address " ++ toString address ++
        " was never backpatched"
  | .malformed fault => fault.message?.getD "malformed tree"

inductive Generator.Event where
  | emitted (address : Nat) (instruction : Instruction)
  | patched (address target : Nat)
  deriving DecidableEq, Repr

structure Generator where
  symbols : SymbolTable
  code : Array Instruction
  /-- The addresses of the jumps that still wait for a target. -/
  pending : List Nat
  scratchDepth : Nat
  peakDepth : Nat
  /-- What has happened to the code so far, in order. -/
  history : Array Generator.Event

namespace Generator

abbrev Action (α : Type) := EStateM GenerationError Generator α

def start (symbols : SymbolTable) : Generator where
  symbols := symbols
  code := #[]
  pending := []
  scratchDepth := 0
  peakDepth := 0
  history := #[]

def nextAddress (generator : Generator) : Nat :=
  generator.code.size

/-- The target a jump has while it is pending. -/
def placeholder : Nat := UInt64.size - 1

def emit (instruction : Instruction) : Action Nat := fun generator =>
  let address := generator.nextAddress
  .ok address { generator with
    code := generator.code.push instruction
    history := generator.history.push (.emitted address instruction) }

def emitPending (jump : Nat → Instruction) : Action Nat := do
  let address ← emit (jump placeholder)
  modify fun generator =>
    { generator with pending := address :: generator.pending }
  pure address

def patch (address target : Nat) : Action Unit := do
  let generator ← get
  if address ∈ generator.pending then
    set { generator with
      code := generator.code.modify address (Instruction.retarget target)
      pending := generator.pending.erase address
      history := generator.history.push (.patched address target) }
  else
    throw (.notAJump address)

def locationOf (name : String) (line : Nat) : Action Nat := do
  match (← get).symbols.location? name with
  | some location => pure location
  | none => throw (.unknownVariable name line)

/-- Takes the next free scratch cell into use and gives its location. -/
def reserveScratch : Action Nat := fun generator =>
  let depth := generator.scratchDepth + 1
  .ok (generator.symbols.size + generator.scratchDepth)
    { generator with
      scratchDepth := depth
      peakDepth := max generator.peakDepth depth }

def releaseScratch (count : Nat) : Action Unit :=
  modify fun generator =>
    { generator with scratchDepth := generator.scratchDepth - count }

/-- Ends the program, in which no jump may be pending any more. -/
def finish : Action Program := do
  let _ ← emit .halt
  let generator ← get
  match generator.pending.min? with
  | some address => throw (.unpatchedJump address)
  | none => pure ⟨generator.code, generator.symbols.size + generator.peakDepth⟩

end Generator

end TinyCompiler
