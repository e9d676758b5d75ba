import TinyCompiler.Operator

/-!
# Parsing tables

What a parser does at a token is looked up by the kind of the token: the rule
for a statement that starts with it, the rule for an operand that starts with
it, and the joiner of two operands that it stands between, with its binding
power.  The standard tables are those of the language; a caller may enter
others.
-/

namespace TinyCompiler

inductive BindingPower where
  | default
  | relational
  | additive
  | multiplicative
  deriving DecidableEq, Repr

namespace BindingPower

def all : List BindingPower :=
  [.default, .relational, .additive, .multiplicative]

def rank : BindingPower → Nat
  | .default => 0
  | .relational => 1
  | .additive => 2
  | .multiplicative => 3

def name : BindingPower → String
  | .default => "Default"
  | .relational => "Relational"
  | .additive => "Additive"
  | .multiplicative => "Multiplicative"

end BindingPower

/-- The rules that read a phrase from its first token on. -/
inductive Rule where
  | ifStatement
  | repeatStatement
  | assignment
  | readStatement
  | writeStatement
  | statement
  | sequence
  | primary
  | grouping
  deriving DecidableEq, Repr

/-- The rules that read an operator and its right operand. -/
inductive Joiner where
  | binary
  | comparison
  deriving DecidableEq, Repr

structure Tables where
  statement : Token.Kind → Option Rule
  operand : Token.Kind → Option Rule
  joiner : Token.Kind → Option (BindingPower × Joiner)

namespace Tables

def empty : Tables where
  statement := fun _ => none
  operand := fun _ => none
  joiner := fun _ => none

def standardStatement : Token.Kind → Option Rule
  | .ifWord => some .ifStatement
  | .repeatWord => some .repeatStatement
  | .identifier => some .assignment
  | .readWord => some .readStatement
  | .writeWord => some .writeStatement
  | _ => none

def standardOperand : Token.Kind → Option Rule
  | .number => some .primary
  | .identifier => some .primary
  | .openParen => some .grouping
  | _ => none

def standardJoiner : Token.Kind → Option (BindingPower × Joiner)
  | .less => some (.relational, .comparison)
  | .equals => some (.relational, .comparison)
  | .plus => some (.additive, .binary)
  | .dash => some (.additive, .binary)
  | .star => some (.multiplicative, .binary)
  | .slash => some (.multiplicative, .binary)
  | _ => none

def standard : Tables where
  statement := standardStatement
  operand := standardOperand
  joiner := standardJoiner

def enterStatement (tables : Tables) (kind : Token.Kind) (rule : Rule) :
    Tables :=
  { tables with
    statement :=
      fun other => if other = kind then some rule else tables.statement other }

def enterOperand (tables : Tables) (kind : Token.Kind) (rule : Rule) : Tables :=
  { tables with
    operand := fun other =>
      if other = kind then some rule else tables.operand other }

def enterJoiner (tables : Tables) (kind : Token.Kind) (power : BindingPower)
    (joiner : Joiner) : Tables :=
  { tables with
    joiner := fun other =>
      if other = kind then some (power, joiner) else tables.joiner other }

/-- How many kinds of tokens a table has an entry for. -/
def entries (table : Token.Kind → Option α) : Nat :=
  Token.Kind.all.countP fun kind => (table kind).isSome

end Tables

end TinyCompiler
