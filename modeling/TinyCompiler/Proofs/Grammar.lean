import TinyCompiler.Phrase
import TinyCompiler.Text.Integer

/-!
# The grammar of programs

One type for each symbol of the grammar; an element of it is a derivation of the
symbol.  The leaves are tokens of the kinds that the grammar has in their place.
A repetition is derived by a list of its rounds and an option by its presence.
A derivation yields the tokens of its leaves and denotes a phrase with a line at
each node; groups, layers and separators are gone from it.
-/

namespace TinyCompiler

namespace Token

/-- The text of the token writes an integer of 32 bits. -/
def Readable (token : Token) : Prop :=
  ∃ value, Text.readInt32 token.text.toList = .ok value

/-- The integer that the text of a readable token writes. -/
def value (token : Token) : Int32 :=
  match Text.readInt32 token.text.toList with
  | .ok value => value
  | .error _ => 0

/-- The operator that a token of such a kind stands for. -/
def operator (token : Token) : Operator :=
  (Operator.ofKind? token.kind).getD .less

end Token

namespace Grammar

/-- A token of one of some kinds. -/
@[ext] structure Terminal (kinds : List Token.Kind) where
  token : Token
  kind_mem : token.kind ∈ kinds

def relations : List Token.Kind := [.less, .equals]
def sums : List Token.Kind := [.plus, .dash]
def products : List Token.Kind := [.star, .slash]

mutual

/-- `exp -> simple-exp [ ("<" | "=") simple-exp ]` -/
inductive Exp where
  | mk (left : SimpleExp) (rest : Comparison)

inductive Comparison where
  | none
  | some (operator : Terminal relations) (right : SimpleExp)

/-- `simple-exp -> term { ("+" | "-") term }` -/
inductive SimpleExp where
  | mk (first : Term) (rest : Terms)

inductive Terms where
  | nil
  | cons (operator : Terminal sums) (next : Term) (rest : Terms)

/-- `term -> factor { ("*" | "/") factor }` -/
inductive Term where
  | mk (first : Factor) (rest : Factors)

inductive Factors where
  | nil
  | cons (operator : Terminal products) (next : Factor) (rest : Factors)

/-- `factor -> "(" exp ")" | number | identifier` -/
inductive Factor where
  | group (opening : Terminal [.openParen]) (inner : Exp)
      (closing : Terminal [.closeParen])
  | number (token : Terminal [.number])
  | identifier (token : Terminal [.identifier])

end

mutual

/-- `statement -> if-stmt | repeat-stmt | assign-stmt | read-stmt`
`| write-stmt` -/
inductive Statement where
  /-- `"if" exp "then" stmt-sequence "end"` -/
  | ifThen (ifWord : Terminal [.ifWord]) (test : Exp)
      (thenWord : Terminal [.thenWord])
      (thenPart : Sequence) (endWord : Terminal [.endWord])
  /-- `"if" exp "then" stmt-sequence "else" stmt-sequence "end"` -/
  | ifElse (ifWord : Terminal [.ifWord]) (test : Exp)
      (thenWord : Terminal [.thenWord])
      (thenPart : Sequence) (elseWord : Terminal [.elseWord])
        (elsePart : Sequence)
      (endWord : Terminal [.endWord])
  /-- `"repeat" stmt-sequence "until" exp` -/
  | repeatUntil (repeatWord : Terminal [.repeatWord]) (body : Sequence)
      (untilWord : Terminal [.untilWord]) (test : Exp)
  /-- `identifier ":=" exp` -/
  | assign (target : Terminal [.identifier])
      (sign : Terminal [.assignment]) (value : Exp)
  /-- `"read" identifier` -/
  | read (readWord : Terminal [.readWord]) (target : Terminal [.identifier])
  /-- `"write" exp` -/
  | write (writeWord : Terminal [.writeWord]) (value : Exp)

/-- `stmt-sequence -> statement { ";" statement }` -/
inductive Sequence where
  | mk (first : Statement) (rest : Statements)

inductive Statements where
  | nil
  | cons (semicolon : Terminal [.semicolon]) (next : Statement)
      (rest : Statements)

end

/-! ## The tokens of a derivation -/

mutual

def Exp.tokens : Exp → List Token
  | .mk left rest => left.tokens ++ rest.tokens

def Comparison.tokens : Comparison → List Token
  | .none => []
  | .some operator right => operator.token :: right.tokens

def SimpleExp.tokens : SimpleExp → List Token
  | .mk first rest => first.tokens ++ rest.tokens

def Terms.tokens : Terms → List Token
  | .nil => []
  | .cons operator next rest => operator.token :: (next.tokens ++ rest.tokens)

def Term.tokens : Term → List Token
  | .mk first rest => first.tokens ++ rest.tokens

def Factors.tokens : Factors → List Token
  | .nil => []
  | .cons operator next rest => operator.token :: (next.tokens ++ rest.tokens)

def Factor.tokens : Factor → List Token
  | .group opening inner closing =>
      opening.token :: (inner.tokens ++ [closing.token])
  | .number token => [token.token]
  | .identifier token => [token.token]

end

mutual

def Statement.tokens : Statement → List Token
  | .ifThen ifWord test thenWord thenPart endWord =>
      ifWord.token ::
        (test.tokens ++ thenWord.token :: (thenPart.tokens ++ [endWord.token]))
  | .ifElse ifWord test thenWord thenPart elseWord elsePart endWord =>
      ifWord.token :: (test.tokens ++ thenWord.token :: (thenPart.tokens ++
        elseWord.token :: (elsePart.tokens ++ [endWord.token])))
  | .repeatUntil repeatWord body untilWord test =>
      repeatWord.token :: (body.tokens ++ untilWord.token :: test.tokens)
  | .assign target sign value => target.token :: sign.token :: value.tokens
  | .read readWord target => [readWord.token, target.token]
  | .write writeWord value => writeWord.token :: value.tokens

def Sequence.tokens : Sequence → List Token
  | .mk first rest => first.tokens ++ rest.tokens

def Statements.tokens : Statements → List Token
  | .nil => []
  | .cons semicolon next rest => semicolon.token :: (next.tokens ++ rest.tokens)

end

/-! ## The phrase of a derivation -/

/-- An operation at the line of its operator. -/
def Terminal.join (operator : Terminal kinds) (left right : Expr Nat) :
    Expr Nat :=
  .op operator.token.line operator.token.operator left right

mutual

def Exp.expr : Exp → Expr Nat
  | .mk left rest => rest.extend left.expr

/-- The expression with what follows its left operand. -/
def Comparison.extend : Comparison → Expr Nat → Expr Nat
  | .none, left => left
  | .some operator right, left => operator.join left right.expr

def SimpleExp.expr : SimpleExp → Expr Nat
  | .mk first rest => rest.extend first.expr

def Terms.extend : Terms → Expr Nat → Expr Nat
  | .nil, left => left
  | .cons operator next rest, left => rest.extend (operator.join left next.expr)

def Term.expr : Term → Expr Nat
  | .mk first rest => rest.extend first.expr

def Factors.extend : Factors → Expr Nat → Expr Nat
  | .nil, left => left
  | .cons operator next rest, left => rest.extend (operator.join left next.expr)

def Factor.expr : Factor → Expr Nat
  | .group _ inner _ => inner.expr
  | .number token => .const token.token.line token.token.value
  | .identifier token => .var token.token.line token.token.text

end

mutual

def Statement.stmt : Statement → Stmt Nat
  | .ifThen ifWord test _ thenPart _ =>
      .ifThen ifWord.token.line test.expr thenPart.block
  | .ifElse ifWord test _ thenPart _ elsePart _ =>
      .ifElse ifWord.token.line test.expr thenPart.block elsePart.block
  | .repeatUntil repeatWord body _ test =>
      .repeatUntil repeatWord.token.line body.block test.expr
  | .assign target _ value =>
      .assign target.token.line target.token.text value.expr
  | .read readWord target => .read readWord.token.line target.token.text
  | .write writeWord value => .write writeWord.token.line value.expr

def Sequence.block : Sequence → Block Nat
  | .mk first rest => .cons first.stmt rest.block

def Statements.block : Statements → Block Nat
  | .nil => .nil
  | .cons _ next rest => .cons next.stmt rest.block

end

end Grammar

end TinyCompiler
