import TinyCompiler.Text.Layout
import TinyCompiler.Text.Position
import TinyCompiler.Text.Quoted

/-!
# Diagnostics

What can be wrong with a program text, where it was found, and how it is shown
to the author: in one line, or with the source line it points at.
-/

namespace TinyCompiler

/-- The five ways in which a typed tree can break a typing rule. -/
inductive TypeError where
  | operand
  | ifTest
  | repeatTest
  | assignedValue
  | writtenValue
  deriving DecidableEq, Repr

def TypeError.message : TypeError → String
  | .operand => "Op applied to non-integer"
  | .ifTest => "if test is not Boolean"
  | .repeatTest => "repeat test is not Boolean"
  | .assignedValue => "assignment of non-integer value"
  | .writtenValue => "write of non-integer value"

/-- What is wrong, apart from where.  A `text` is the text of the character or
token at fault. -/
inductive Problem where
  | unrecognisedToken (text : String)
  | unterminatedComment
  | unexpectedToken (text : String)
  | unexpectedTokenDetailed (text : String) (detail : String)
  | numberOutOfRange (text : String)
  | typing (error : TypeError)
  deriving DecidableEq, Repr

namespace Problem

def name : Problem → String
  | .unrecognisedToken _ => "UnrecognisedToken"
  | .unterminatedComment => "UnterminatedComment"
  | .unexpectedToken _ => "UnexpectedToken"
  | .unexpectedTokenDetailed _ _ => "UnexpectedTokenDetailed"
  | .numberOutOfRange _ => "NumberParseError"
  | .typing _ => "TypeError"

def isTyping : Problem → Bool
  | .typing _ => true
  | _ => false

def message : Problem → String
  | .unrecognisedToken text => "unrecognised token: " ++ Text.quoted text
  | .unterminatedComment => "unterminated comment"
  | .unexpectedToken text => "unexpected token: " ++ Text.quoted text
  | .unexpectedTokenDetailed text detail =>
      "unexpected token (" ++ detail ++ "): " ++ Text.quoted text
  | .numberOutOfRange text => "error parsing number: " ++ Text.quoted text
  | .typing error => error.message

/-- The hint shown beside the name.  Source text in it stands as it is. -/
def tip? : Problem → Option String
  | .unrecognisedToken _ => none
  | .unterminatedComment => some "Comment opened with `\x7b` is never closed"
  | .unexpectedToken text =>
      some ("Unexpected token: `" ++ text ++ "`, did you miss a semicolon?")
  | .unexpectedTokenDetailed text detail =>
      some ("Unexpected token: `" ++ text ++ "`, " ++ detail)
  | .numberOutOfRange text =>
      some ("Invalid number: `" ++ text ++ "`, is it above the integer limit?")
  | .typing error => some error.message

end Problem

structure Diagnostic where
  problem : Problem
  line : Nat
  file : String
  deriving DecidableEq, Repr

namespace Diagnostic

def message (diagnostic : Diagnostic) : String :=
  "line " ++ toString diagnostic.line ++ ": " ++ diagnostic.problem.message

/-- The source line a diagnostic points at, without its indentation and without
the white space at its end.  Line 0 selects the first line, and a line past the
end is empty. -/
def sourceLine (line : Nat) (source : String) : List Char :=
  let text := (Text.lines source.toList)[line - 1]?.getD []
  Text.trimEnd (text.dropWhile fun c => c = ' ' || c = '\t')

def headline (diagnostic : Diagnostic) : String :=
  match diagnostic.problem.tip? with
  | none => "Error: " ++ diagnostic.problem.name
  | some tip => "Error: " ++ diagnostic.problem.name ++ " (" ++ tip ++ ")"

/-- The diagnostic with the source line it points at.  A line that is not empty
is underlined, one caret for each character. -/
def render (diagnostic : Diagnostic) (source : String) : String :=
  let number := toString diagnostic.line
  let gutter := Text.alignRight (number.length + 2) "|"
  let text := sourceLine diagnostic.line source
  let carets :=
    if text.isEmpty then ""
    else gutter ++ " " ++ String.ofList (List.replicate text.length '^') ++ "\n"
  diagnostic.headline ++ "\n" ++
    "-> " ++ diagnostic.file ++ "\n" ++
    gutter ++ "\n" ++
    " " ++ number ++ " | " ++ String.ofList text ++ "\n" ++
    carets

end Diagnostic

end TinyCompiler
