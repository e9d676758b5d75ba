import TinyCompiler.Diagnostic
import TinyCompiler.Parser.Tables
import TinyCompiler.Tree.Basic

/-!
# The state of a parser

A parser stands at one token, has those behind it still before it, and holds the
tree it has built so far.  The last token is the end of input, and a parser that
stands there does not move on.  When parsing stops with a diagnostic, the parser
stays at the token where it stopped and keeps the nodes made until then.
-/

namespace TinyCompiler

structure Parser where
  current : Token
  upcoming : List Token
  file : String
  tables : Tables
  tree : Tree

namespace Parser

inductive Stop where
  /-- The program text is wrong. -/
  | rejected (diagnostic : Diagnostic)
  /-- A rule was entered where it gives a node that does not fit. -/
  | misused (fault : Tree.Fault)
  deriving DecidableEq, Repr

abbrev Action (α : Type) := EStateM Stop Parser α

/-- The first token and those behind it, closed by the end of input if the last
one is another. -/
def terminated : List Token → Token × List Token
  | [] => (Token.endOfInput 1, [])
  | [last] =>
      if last.kind = .endOfInput then (last, [])
      else (last, [Token.endOfInput last.line])
  | first :: second :: rest =>
      let behind := terminated (second :: rest)
      (first, behind.1 :: behind.2)

def start (tables : Tables) (tokens : List Token) (file : String) : Parser where
  current := (terminated tokens).1
  upcoming := (terminated tokens).2
  file := file
  tables := tables
  tree := Tree.empty

def kind (parser : Parser) : Token.Kind :=
  parser.current.kind

/-- The binding power of the current token, the lowest if it joins nothing. -/
def power (parser : Parser) : BindingPower :=
  match parser.tables.joiner parser.kind with
  | some (power, _) => power
  | none => .default

def diagnostic (parser : Parser) (problem : Problem) : Diagnostic :=
  ⟨problem, parser.current.line, parser.file⟩

/-- The current token is not one that may stand here. -/
def unexpectedToken (parser : Parser) : Diagnostic :=
  parser.diagnostic (.unexpectedToken parser.current.text)

/-- The current token is not one that may stand here, and `detail` says why. -/
def unexpected (parser : Parser) (detail : String) : Diagnostic :=
  parser.diagnostic (.unexpectedTokenDetailed parser.current.text detail)

/-- The parser behind the current token, or at it if it is the last one. -/
def advanced (parser : Parser) : Parser :=
  match parser.upcoming with
  | [] => parser
  | next :: rest => { parser with current := next, upcoming := rest }

def advance : Action Token := fun parser =>
  .ok parser.current parser.advanced

def reject (diagnostic : Diagnostic) : Action α :=
  throw (.rejected diagnostic)

/-- Moves on over a token of one kind; any other is rejected as told. -/
def expectOr (kind : Token.Kind) (diagnostic : Diagnostic) : Action Token := do
  if (← get).kind = kind then advance else reject diagnostic

/-- Moves on over a token of one kind; any other is rejected as unexpected. -/
def expect (kind : Token.Kind) : Action Token := do
  expectOr kind (← get).unexpectedToken

/-- Moves on over a token of one kind; any other is rejected with a detail. -/
def expectWith (kind : Token.Kind) (detail : String) : Action Token := do
  expectOr kind ((← get).unexpected detail)

def rejectCurrent (detail : String) : Action α := do
  reject ((← get).unexpected detail)

def build (line : Nat) (form : Form) : Action NodeId := fun parser =>
  match parser.tree.add line form with
  | .error fault => .error (.misused fault) parser
  | .ok (id, tree) => .ok id { parser with tree := tree }

def changeTree (change : Tree → Except Tree.Fault Tree) :
    Action Unit := fun parser =>
  match change parser.tree with
  | .error fault => .error (.misused fault) parser
  | .ok tree => .ok () { parser with tree := tree }

end Parser

end TinyCompiler
