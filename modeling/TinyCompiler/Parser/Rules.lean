import TinyCompiler.Parser.State
import TinyCompiler.Text.Integer

/-!
# Parsing rules

What a parser is after is a goal: a rule to follow, an expression above some
binding power, or the rest of a sequence, of an expression or of an operation of
which a part has been read.  `attempt` reaches one goal through others, and
`reach` closes that recursion.  A goal is reached at the number of the node it
builds; operands are built before their operator and parts before their
statement.
-/

namespace TinyCompiler.Parser

inductive Goal where
  | rule (rule : Rule)
  /-- An expression whose operators bind tighter than `power`. -/
  | expression (power : BindingPower)
  /-- What may follow the operand `left` in such an expression. -/
  | extension (left : NodeId) (power : BindingPower)
  /-- The operator at the current token and its right operand. -/
  | join (joiner : Joiner) (left : NodeId) (power : BindingPower)
  /-- The statements behind `tail` in the sequence that starts at `head`. -/
  | sequenceAfter (head tail : NodeId)
  deriving DecidableEq, Repr

section Rules

variable (recur : Goal → Action NodeId)

def ifStatement : Action NodeId := do
  let keyword ← advance
  let test ← recur (.expression .default)
  let _ ← expect .thenWord
  let thenPart ← recur (.rule .sequence)
  let elsePart ←
    if (← get).kind = .elseWord then do
      let _ ← advance
      let part ← recur (.rule .sequence)
      pure (some part)
    else pure none
  let _ ← expect .endWord
  build keyword.line (.ifElse test thenPart elsePart)

def repeatStatement : Action NodeId := do
  let keyword ← advance
  let body ← recur (.rule .sequence)
  let _ ← expect .untilWord
  let test ← recur (.expression .default)
  build keyword.line (.repeatUntil body test)

def assignment : Action NodeId := do
  let target ← expect .identifier
  let _ ← expectWith .assignment "expected `:=` after assignment target"
  let value ← recur (.expression .default)
  build target.line (.assign target.text value)

def readStatement : Action NodeId := do
  let keyword ← advance
  let target ← expectWith .identifier "expected identifier after `read`"
  build keyword.line (.read target.text)

def writeStatement : Action NodeId := do
  let keyword ← advance
  let value ← recur (.expression .default)
  build keyword.line (.write value)

def statement : Action NodeId := do
  let parser ← get
  match parser.tables.statement parser.kind with
  | some rule => recur (.rule rule)
  | none => rejectCurrent "expected a statement"

def sequence : Action NodeId := do
  let head ← recur (.rule .statement)
  recur (.sequenceAfter head head)

/-- A sequence ends before a token that closes one; before any other token a
semicolon has to stand. -/
def sequenceAfter (head tail : NodeId) : Action NodeId := do
  if (← get).kind.endsSequence then pure head
  else do
    let _ ← expect .semicolon
    let next ← recur (.rule .statement)
    changeTree fun tree => tree.setSibling tail next
    recur (.sequenceAfter head next)

def primary : Action NodeId := do
  let parser ← get
  let token := parser.current
  match token.kind with
  | .number =>
      match Text.readInt32 token.text.toList with
      | .error _ => reject (parser.diagnostic (.numberOutOfRange token.text))
      | .ok value => do
          let _ ← advance
          build token.line (.const value)
  | .identifier => do
      let _ ← advance
      build token.line (.var token.text)
  | _ => rejectCurrent "expected a number or identifier"

def grouping : Action NodeId := do
  let _ ← advance
  let inner ← recur (.expression .default)
  let _ ← expectWith .closeParen "expected `)`"
  pure inner

def expression (power : BindingPower) : Action NodeId := do
  let parser ← get
  match parser.tables.operand parser.kind with
  | none => rejectCurrent "expected an expression"
  | some rule => do
      let left ← recur (.rule rule)
      recur (.extension left power)

def extension (left : NodeId) (power : BindingPower) : Action NodeId := do
  let parser ← get
  match parser.tables.joiner parser.kind with
  | none => pure left
  | some (tighter, joiner) =>
      if power.rank < tighter.rank then do
        let joined ← recur (.join joiner left tighter)
        recur (.extension joined power)
      else pure left

/-- The token has to stand for an operator.  One that does not is rejected when
the parser has moved on already. -/
def binary (left : NodeId) (power : BindingPower) : Action NodeId := do
  let token ← advance
  match Operator.ofKind? token.kind with
  | none => do
      reject ((← get).diagnostic (.unexpectedToken token.text))
  | some operator => do
      let right ← recur (.expression power)
      build token.line (.op operator left right)

/-- A comparison has two operands and is not the operand of another one. -/
def comparison (left : NodeId) (power : BindingPower) : Action NodeId := do
  let joined ← recur (.join .binary left power)
  if (← get).power = .relational then
    rejectCurrent "comparison operators do not chain"
  else pure joined

def follow : Rule → Action NodeId
  | .ifStatement => ifStatement recur
  | .repeatStatement => repeatStatement recur
  | .assignment => assignment recur
  | .readStatement => readStatement
  | .writeStatement => writeStatement recur
  | .statement => statement recur
  | .sequence => sequence recur
  | .primary => primary
  | .grouping => grouping recur

def attempt : Goal → Action NodeId
  | .rule rule => follow recur rule
  | .expression power => expression recur power
  | .extension left power => extension recur left power
  | .join .binary left power => binary recur left power
  | .join .comparison left power => comparison recur left power
  | .sequenceAfter head tail => sequenceAfter recur head tail

end Rules

/-- Reaches a goal with at most `depth` goals open at once. -/
def reach : Nat → Goal → Action NodeId
  | 0, _ => throw (.misused .endless)
  | depth + 1, goal => attempt (reach depth) goal

/-- There are fewer than 32 goals that can be open at one token without one of
them being open twice, and a goal that is open twice is never reached. -/
def depth (parser : Parser) : Nat :=
  32 * (parser.upcoming.length + 1)

def pursue (goal : Goal) : Action NodeId := do
  reach (← get).depth goal

/-- Reads one sequence up to the end of input and makes it the root. -/
def program : Action Unit := do
  let root ← pursue (.rule .sequence)
  if (← get).kind = .endOfInput then changeTree fun tree => tree.setRoot root
  else rejectCurrent "code ends before file"

/-- A parser of the language that has read the tokens as far as they make up a
program, and why it stopped if they do not. -/
def run (tokens : List Token) (file : String) : Except Stop Unit × Parser :=
  match program (start .standard tokens file) with
  | .ok value parser => (.ok value, parser)
  | .error stop parser => (.error stop, parser)

def parse (tokens : List Token) (file : String) : Except Stop Tree :=
  let (result, parser) := run tokens file
  result.map fun _ => parser.tree

end TinyCompiler.Parser
