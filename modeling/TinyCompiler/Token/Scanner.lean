import TinyCompiler.Diagnostic
import TinyCompiler.Text.Integer
import TinyCompiler.Token

/-!
# Splitting a text into tokens

A text is first cut into pieces, each as long as its class allows: words,
numbers, symbols, and the gaps between them (white space and closed comments).
The pieces and what is left over make up the whole text.  Then the pieces that
are not gaps are labelled with the line they start on.
-/

namespace TinyCompiler.Scanner

inductive Piece where
  | token (kind : Token.Kind) (text : List Char)
  | gap (text : List Char)
  deriving DecidableEq, Repr

def Piece.text : Piece → List Char
  | .token _ text => text
  | .gap text => text

/-- The kind of a word.  A word that is not reserved names a variable. -/
def wordKind (word : List Char) : Token.Kind :=
  (Token.Kind.ofReserved? (String.ofList word)).getD .identifier

def symbolKind? : Char → Option Token.Kind
  | '=' => some .equals
  | '<' => some .less
  | '(' => some .openParen
  | ')' => some .closeParen
  | ';' => some .semicolon
  | '+' => some .plus
  | '-' => some .dash
  | '*' => some .star
  | '/' => some .slash
  | _ => none

/-- A comment whose opening brace has been read, and the text behind it. -/
def comment? (rest : List Char) : Option (Piece × List Char) :=
  match rest.dropWhile (· ≠ '}') with
  | [] => none
  | brace :: after =>
      some (.gap ('{' :: rest.takeWhile (· ≠ '}') ++ [brace]), after)

def symbol? (c : Char) (rest : List Char) : Option (Piece × List Char) :=
  match c, rest with
  | ':', '=' :: after => some (.token .assignment [':', '='], after)
  | _, _ => (symbolKind? c).map fun kind => (.token kind [c], rest)

/-- The piece at the head of a text that starts with `c`, and the text behind
it.  There is none where a comment is not closed or no class has `c`. -/
def next? (c : Char) (rest : List Char) : Option (Piece × List Char) :=
  if c.isAlpha then
    let word := c :: rest.takeWhile Char.isAlpha
    some (.token (wordKind word) word, rest.dropWhile Char.isAlpha)
  else if c.isDigit then
    some (.token .number (c :: rest.takeWhile Char.isDigit),
      rest.dropWhile Char.isDigit)
  else if Text.isBlank c then
    some (.gap (c :: rest.takeWhile Text.isBlank), rest.dropWhile Text.isBlank)
  else if c = '{' then comment? rest
  else symbol? c rest

theorem comment?_eq_append {rest after : List Char} {piece : Piece}
    (h : comment? rest = some (piece, after)) :
    '{' :: rest = piece.text ++ after := by
  unfold comment? at h
  split at h
  · cases h
  · next brace tail hdrop =>
      cases h
      have hsplit :=
        List.takeWhile_append_dropWhile (p := (· ≠ '}')) (l := rest)
      rw [hdrop] at hsplit
      simpa [Piece.text] using hsplit.symm

theorem symbol?_eq_append {c : Char} {rest after : List Char} {piece : Piece}
    (h : symbol? c rest = some (piece, after)) :
    c :: rest = piece.text ++ after := by
  unfold symbol? at h
  split at h
  · cases h
    rfl
  · obtain ⟨kind, -, heq⟩ := Option.map_eq_some_iff.1 h
    cases heq
    rfl

theorem next?_eq_append {c : Char} {rest after : List Char} {piece : Piece}
    (h : next? c rest = some (piece, after)) :
    c :: rest = piece.text ++ after := by
  unfold next? at h
  split at h
  · cases h
    simp [Piece.text]
  split at h
  · cases h
    simp [Piece.text]
  split at h
  · cases h
    simp [Piece.text]
  split at h
  · next hbrace =>
      subst hbrace
      exact comment?_eq_append h
  · exact symbol?_eq_append h

theorem next?_text_ne_nil {c : Char} {rest after : List Char} {piece : Piece}
    (h : next? c rest = some (piece, after)) : piece.text ≠ [] := by
  unfold next? at h
  split at h
  · cases h
    simp [Piece.text]
  split at h
  · cases h
    simp [Piece.text]
  split at h
  · cases h
    simp [Piece.text]
  split at h
  · unfold comment? at h
    split at h
    · cases h
    · cases h
      simp [Piece.text]
  · unfold symbol? at h
    split at h
    · cases h
      simp [Piece.text]
    · obtain ⟨kind, -, heq⟩ := Option.map_eq_some_iff.1 h
      cases heq
      simp [Piece.text]

theorem next?_length_lt {c : Char} {rest after : List Char} {piece : Piece}
    (h : next? c rest = some (piece, after)) :
    after.length < (c :: rest).length := by
  have hlength := congrArg List.length (next?_eq_append h)
  have hpositive := List.length_pos_iff.2 (next?_text_ne_nil h)
  rw [List.length_append] at hlength
  omega

/-- The pieces of a text in order, and the text from where no piece starts. -/
def split : List Char → List Piece × List Char
  | [] => ([], [])
  | c :: rest =>
      match _h : next? c rest with
      | none => ([], c :: rest)
      | some (piece, after) =>
          let (pieces, left) := split after
          (piece :: pieces, left)
termination_by text => text.length
decreasing_by exact next?_length_lt _h

/-- Nothing is lost: the pieces and what is left make up the text. -/
theorem split_append (text : List Char) :
    (split text).1.flatMap Piece.text ++ (split text).2 = text := by
  fun_induction split text with
  | case1 => rfl
  | case2 => rfl
  | case3 c rest piece after hnext pieces left hsplit ih =>
      rw [hsplit] at ih
      simp [ih, next?_eq_append hnext]

/-- The tokens among the pieces, when the first piece starts on `line`. -/
def label : Nat → List Piece → List Token
  | _, [] => []
  | line, .token kind text :: pieces =>
      ⟨kind, String.ofList text, line⟩ ::
        label (line + Text.lineFeeds text) pieces
  | line, .gap text :: pieces => label (line + Text.lineFeeds text) pieces

/-- The line behind the pieces, when the first piece starts on `line`. -/
def lineAfter (line : Nat) (pieces : List Piece) : Nat :=
  pieces.foldl (fun line piece => line + Text.lineFeeds piece.text) line

def problemAt (c : Char) : Problem :=
  if c = '{' then .unterminatedComment else .unrecognisedToken
    (String.singleton c)

/-- What scanning a text gives: the tokens in order, and the first problem with
its line.  The token for the end of input is there only without a problem. -/
structure Scan where
  tokens : List Token
  problem : Option (Problem × Nat)
  deriving DecidableEq, Repr

def scan (source : String) : Scan :=
  let (pieces, left) := split source.toList
  let line := lineAfter 1 pieces
  match left with
  | [] => ⟨label 1 pieces ++ [Token.endOfInput line], none⟩
  | c :: _ => ⟨label 1 pieces, some (problemAt c, line)⟩

/-- The name of a text that comes from no file. -/
def defaultFile : String := "shell"

/-- The tokens of a text, the one for the end of input last, or the first
problem. -/
def tokenize (source : String) (file : Option String) :
    Except Diagnostic (List Token) :=
  let scanned := scan source
  match scanned.problem with
  | none => .ok scanned.tokens
  | some (problem, line) => .error ⟨problem, line, file.getD defaultFile⟩

end TinyCompiler.Scanner
