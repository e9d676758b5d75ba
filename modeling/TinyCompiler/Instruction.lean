import TinyCompiler.Operator
import TinyCompiler.Text.Layout
import TinyCompiler.Text.Integer

/-!
# Instructions of the accumulator machine

An instruction works on the accumulator and at most one operand: a value given
in the instruction, or a memory location.  Jumps name the address of an
instruction.
-/

namespace TinyCompiler

/-- The second operand of an operation; the first is the accumulator. -/
inductive Operand where
  | immediate (value : Int32)
  | memory (location : Nat)
  deriving DecidableEq, Repr

inductive Instruction where
  | loadImmediate (value : Int32)
  | load (location : Nat)
  | store (location : Nat)
  | operate (operator : Operator) (operand : Operand)
  | jump (target : Nat)
  /-- Jumps if the accumulator is zero. -/
  | jumpIfZero (target : Nat)
  /-- Takes the next input into a memory location. -/
  | read (location : Nat)
  /-- Puts the accumulator out. -/
  | write
  | halt
  deriving DecidableEq, Repr

def Operand.text : Operand → String
  | .immediate value => "#" ++ Text.writeInt32 value
  | .memory location => toString location

def Operator.mnemonic : Operator → String
  | .plus => "ADD"
  | .minus => "SUB"
  | .times => "MUL"
  | .over => "DIV"
  | .less => "LT"
  | .equal => "EQ"

namespace Instruction

def mnemonic : Instruction → String
  | .loadImmediate _ => "LDC"
  | .load _ => "LD"
  | .store _ => "ST"
  | .operate operator _ => operator.mnemonic
  | .jump _ => "JMP"
  | .jumpIfZero _ => "JZ"
  | .read _ => "IN"
  | .write => "OUT"
  | .halt => "HALT"

def isJump : Instruction → Bool
  | .jump _ | .jumpIfZero _ => true
  | _ => false

def operandText? : Instruction → Option String
  | .loadImmediate value => some (Operand.immediate value).text
  | .load location | .store location | .read location =>
      some (toString location)
  | .operate _ operand => some operand.text
  | .jump target | .jumpIfZero target => some (toString target)
  | .write | .halt => none

def text (instruction : Instruction) : String :=
  match instruction.operandText? with
  | none => instruction.mnemonic
  | some operand => instruction.mnemonic ++ " " ++ operand

/-- A jump with another target; other instructions stay as they are. -/
def retarget (target : Nat) : Instruction → Instruction
  | .jump _ => .jump target
  | .jumpIfZero _ => .jumpIfZero target
  | instruction => instruction

end Instruction

structure Program where
  code : Array Instruction
  memorySize : Nat
  deriving DecidableEq, Repr

namespace Program

def size (program : Program) : Nat :=
  program.code.size

def get? (program : Program) (address : Nat) : Option Instruction :=
  program.code[address]?

def line (address : Nat) (instruction : Instruction) : String :=
  Text.alignRight 3 (toString address) ++ ": " ++ instruction.text ++ "\n"

def listing (program : Program) : String :=
  String.join (program.code.toList.mapIdx line)

end Program

end TinyCompiler
