import TinyCompiler.Instruction
import TinyCompiler.Phrase
import TinyCompiler.SymbolTable

/-!
# The layout of code

The code of a phrase as a function of the phrase, of the locations of the
variables and of the first free scratch cell.  Statements also need the address
at which their code starts, and every jump has its target from the beginning.
-/

namespace TinyCompiler

/-- The location of a variable; 0 for a name without one. -/
def SymbolTable.locate (table : SymbolTable) (name : String) : Nat :=
  (table.location? name).getD 0

theorem SymbolTable.locate_of_location? {table : SymbolTable} {name : String}
    {location : Nat} (hlocation : table.location? name = some location) :
    table.locate name = location := by
  simp [locate, hlocation]

namespace Expr

/-- The operand in which the value of an expression is found. -/
def operand (locate : String → Nat) (scratch : Nat) : Expr α → Operand
  | .const _ value => .immediate value
  | .var _ name => .memory (locate name)
  | .op _ _ _ _ => .memory (scratch + 1)

/-- What comes before the instruction of an operator to make its right operand
available; `code` computes it, when it has to be computed. -/
def operandCode (code : List Instruction) (scratch : Nat) :
    Expr α → List Instruction
  | .const _ _ => []
  | .var _ _ => []
  | .op _ _ _ _ =>
      .store scratch :: (code ++ [.store (scratch + 1), .load scratch])

def code (locate : String → Nat) : Expr α → Nat → List Instruction
  | .const _ value, _ => [.loadImmediate value]
  | .var _ name, _ => [.load (locate name)]
  | .op _ operator left right, scratch =>
      left.code locate scratch ++
        (right.operandCode (right.code locate (scratch + 1)) scratch ++
          [.operate operator (right.operand locate scratch)])

/-- The scratch depth that a right operand reaches, if its own code reaches
`inner`. -/
def operandPeak (inner depth : Nat) : Expr α → Nat
  | .const _ _ => 0
  | .var _ _ => 0
  | .op _ _ _ _ => max (depth + 2) inner

/-- The largest scratch depth that the code reaches when it starts at one; 0
without a scratch cell. -/
def peak : Expr α → Nat → Nat
  | .const _ _, _ => 0
  | .var _ _, _ => 0
  | .op _ _ left right, depth =>
      max (left.peak depth) (right.operandPeak (right.peak (depth + 1)) depth)

end Expr

mutual

def Stmt.peak : Stmt α → Nat → Nat
  | .read _ _, _ => 0
  | .assign _ _ value, depth => value.peak depth
  | .write _ value, depth => value.peak depth
  | .ifThen _ test thenPart, depth =>
      max (test.peak depth) (thenPart.peak depth)
  | .ifElse _ test thenPart elsePart, depth =>
      max (test.peak depth) (max (thenPart.peak depth) (elsePart.peak depth))
  | .repeatUntil _ body test, depth => max (body.peak depth) (test.peak depth)

def Block.peak : Block α → Nat → Nat
  | .nil, _ => 0
  | .cons first rest, depth => max (first.peak depth) (rest.peak depth)

end

/-- The code of an `if` without an else part at an address. -/
def branchCode (base : Nat) (testCode thenCode : List Instruction) :
    List Instruction :=
  testCode ++ .jumpIfZero
    (base + testCode.length + 1 + thenCode.length) :: thenCode

/-- The code of an `if` with both parts at an address. -/
def choiceCode (base : Nat) (testCode thenCode elseCode : List Instruction) :
    List Instruction :=
  testCode ++ .jumpIfZero
    (base + testCode.length + 1 + thenCode.length + 1) :: (thenCode ++
    .jump (base + testCode.length + 1 + thenCode.length + 1 +
      elseCode.length) :: elseCode)

theorem add_length_branchCode (base : Nat)
    (testCode thenCode : List Instruction) :
    base + (branchCode base testCode thenCode).length =
      base + testCode.length + 1 + thenCode.length := by
  simp only [branchCode, List.length_append, List.length_cons]
  omega

theorem add_length_choiceCode (base : Nat)
    (testCode thenCode elseCode : List Instruction) :
    base + (choiceCode base testCode thenCode elseCode).length =
      base + testCode.length + 1 + thenCode.length + 1 + elseCode.length := by
  simp only [choiceCode, List.length_append, List.length_cons]
  omega

section Statements

variable (locate : String → Nat) (scratch : Nat)

mutual

def Stmt.code : Stmt α → Nat → List Instruction
  | .read _ name, _ => [.read (locate name)]
  | .assign _ name value, _ =>
      value.code locate scratch ++ [.store (locate name)]
  | .write _ value, _ => value.code locate scratch ++ [.write]
  | .ifThen _ test thenPart, base =>
      let testCode := test.code locate scratch
      branchCode base testCode (thenPart.code (base + testCode.length + 1))
  | .ifElse _ test thenPart elsePart, base =>
      let testCode := test.code locate scratch
      let thenCode := thenPart.code (base + testCode.length + 1)
      choiceCode base testCode thenCode
        (elsePart.code (base + testCode.length + 1 + thenCode.length + 1))
  | .repeatUntil _ body test, base =>
      body.code base ++ (test.code locate scratch ++ [.jumpIfZero base])

def Block.code : Block α → Nat → List Instruction
  | .nil, _ => []
  | .cons first rest, base =>
      let firstCode := first.code base
      firstCode ++ rest.code (base + firstCode.length)

end

end Statements

/-- The program of a block: its code from address 0 and a `HALT`. -/
def Program.ofBlock (symbols : SymbolTable) (block : Block α) : Program where
  code := (block.code symbols.locate symbols.size 0 ++
    [Instruction.halt]).toArray
  memorySize := symbols.size + block.peak 0

end TinyCompiler
