/-!
# Tokens

The words, numbers and symbols of a program text, each with the text it was
written as and the line it starts on.
-/

namespace TinyCompiler

inductive Token.Kind where
  | endOfInput
  | number
  | identifier
  | openParen
  | closeParen
  | assignment
  | equals
  | less
  | semicolon
  | plus
  | dash
  | slash
  | star
  | ifWord
  | thenWord
  | elseWord
  | endWord
  | repeatWord
  | untilWord
  | readWord
  | writeWord
  deriving DecidableEq, Repr

structure Token where
  kind : Token.Kind
  text : String
  line : Nat
  deriving DecidableEq, Repr

namespace Token

def Kind.all : List Kind :=
  [.endOfInput, .number, .identifier, .openParen, .closeParen, .assignment,
    .equals, .less, .semicolon, .plus, .dash, .slash, .star, .ifWord, .thenWord,
    .elseWord, .endWord, .repeatWord, .untilWord, .readWord, .writeWord]

def Kind.name : Kind → String
  | .endOfInput => "EOF"
  | .number => "Number"
  | .identifier => "Identifier"
  | .openParen => "OpenParen"
  | .closeParen => "CloseParen"
  | .assignment => "Assignment"
  | .equals => "Equals"
  | .less => "Less"
  | .semicolon => "Semicolon"
  | .plus => "Plus"
  | .dash => "Dash"
  | .slash => "Slash"
  | .star => "Star"
  | .ifWord => "If"
  | .thenWord => "Then"
  | .elseWord => "Else"
  | .endWord => "End"
  | .repeatWord => "Repeat"
  | .untilWord => "Until"
  | .readWord => "Read"
  | .writeWord => "Write"

/-- The kind of a reserved word.  Reserved words are written in lower case. -/
def Kind.ofReserved? : String → Option Kind
  | "if" => some .ifWord
  | "then" => some .thenWord
  | "else" => some .elseWord
  | "end" => some .endWord
  | "repeat" => some .repeatWord
  | "until" => some .untilWord
  | "read" => some .readWord
  | "write" => some .writeWord
  | _ => none

def Kind.endsSequence : Kind → Bool
  | .endOfInput | .endWord | .elseWord | .untilWord => true
  | _ => false

/-- The token that follows the last one of a program. -/
def endOfInput (line : Nat) : Token where
  kind := .endOfInput
  text := "EOF"
  line := line

/-- The description of a token in traces.  Whether it counts as a reserved word
is read off its text. -/
def describe (token : Token) : String :=
  match token.kind with
  | .identifier => "ID, name= " ++ token.text
  | .number => "NUM, val= " ++ token.text
  | .endOfInput => "EOF"
  | kind =>
      if (Kind.ofReserved? token.text).isSome then "reserved word: " ++
        kind.name.toLower
      else token.text

end Token

end TinyCompiler
