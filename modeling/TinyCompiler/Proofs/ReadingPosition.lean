import Mathlib.Data.String.Basic
import TinyCompiler.Proofs.LexicalGrammar
import TinyCompiler.Text.Position

/-!
# The reading position of the scanner

A reader scans a text by moving a position over it that counts bytes.  In every
round it takes the first of a list of patterns that matches at the position, and
the handler of that pattern moves the position on: by the bytes of a match that
the handler searches for again, or of a symbol that it knows beforehand.  The
position stays between the characters of the text, every round takes the bytes
of one match and at least one of them, and the reader comes to the same end as
the scanner.
-/

namespace TinyCompiler.Scanner

/-! ## Patterns -/

/-- A shape of text: a run of characters of one class, a text between two
delimiters that ends at the first closing one, or one word. -/
inductive Shape where
  | run (accepts : Char → Bool)
  | enclosed (opening closing : Char)
  | literal (word : List Char)

namespace Shape

def Describes : Shape → List Char → Prop
  | .run accepts, text => text ≠ [] ∧ ∀ c ∈ text, accepts c = true
  | .enclosed opening closing, text =>
      ∃ body, closing ∉ body ∧ text = opening :: body ++ [closing]
  | .literal word, text => text = word

/-- The text is of the shape, and it is the longest one at the front of
`rest`. -/
structure Matches (shape : Shape) (rest text : List Char) : Prop where
  front : text <+: rest
  describes : shape.Describes text
  longest : ∀ other,
    other <+: rest → shape.Describes other → other.length ≤ text.length

/-- The match at the front of a text. -/
def match? : Shape → List Char → Option (List Char)
  | .run accepts, rest =>
      if rest.takeWhile accepts = [] then none
      else some (rest.takeWhile accepts)
  | .enclosed _ _, [] => none
  | .enclosed opening closing, c :: rest =>
      if c = opening ∧ closing ∈ rest then
        some (opening :: rest.takeWhile (· ≠ closing) ++ [closing])
      else none
  | .literal word, rest => if word <+: rest then some word else none

end Shape

/-- What a handler does with a match. -/
inductive Handling where
  | word
  | number
  | skip
  | unclosed
  | fixed (kind : Token.Kind) (text : String)

structure Pattern where
  shape : Shape
  handling : Handling

/-- The patterns in the order in which they are tried. -/
def patterns : List Pattern :=
  [⟨.run Char.isAlpha, .word⟩,
    ⟨.run Char.isDigit, .number⟩,
    ⟨.run Text.isBlank, .skip⟩,
    ⟨.enclosed '{' '}', .skip⟩,
    ⟨.literal ['{'], .unclosed⟩,
    ⟨.literal [':', '='], .fixed .assignment ":="⟩,
    ⟨.literal ['='], .fixed .equals "="⟩,
    ⟨.literal ['<'], .fixed .less "<"⟩,
    ⟨.literal ['('], .fixed .openParen "("⟩,
    ⟨.literal [')'], .fixed .closeParen ")"⟩,
    ⟨.literal [';'], .fixed .semicolon ";"⟩,
    ⟨.literal ['+'], .fixed .plus "+"⟩,
    ⟨.literal ['-'], .fixed .dash "-"⟩,
    ⟨.literal ['*'], .fixed .star "*"⟩,
    ⟨.literal ['/'], .fixed .slash "/"⟩]

def select? (rest : List Char) : Option Pattern :=
  patterns.find? fun pattern => (pattern.shape.match? rest).isSome

/-! ## Readers -/

structure Reader where
  position : Text.Position
  line : Nat
  tokens : List Token

/-- Why a reader stops before the end of its text. -/
inductive Stop where
  | problem (problem : Problem) (line : Nat)
  /-- There is no text at the position. -/
  | lost

namespace Reader

def start (source : String) : Reader where
  position := .start source
  line := 1
  tokens := []

def remainder (reader : Reader) : Except Stop (List Char) :=
  match reader.position.remainder? with
  | some rest => .ok rest
  | none => .error .lost

def advance (reader : Reader) (count : Nat) : Reader :=
  { reader with position := reader.position.advance count }

def push (reader : Reader) (kind : Token.Kind) (text : String) : Reader :=
  { reader with tokens := reader.tokens ++ [⟨kind, text, reader.line⟩] }

/-- The match of a shape at the position; empty where there is none. -/
def matched (reader : Reader) (shape : Shape) : Except Stop String := do
  let rest ← reader.remainder
  pure (String.ofList ((shape.match? rest).getD []))

def handle (reader : Reader) (pattern : Pattern) : Except Stop Reader :=
  match pattern.handling with
  | .word => do
      let text ← reader.matched pattern.shape
      pure ((reader.push (wordKind text.toList) text).advance text.utf8ByteSize)
  | .number => do
      let text ← reader.matched pattern.shape
      pure ((reader.push .number text).advance text.utf8ByteSize)
  | .skip => do
      let text ← reader.matched pattern.shape
      pure (advance
        { reader with line := reader.line + Text.lineFeeds text.toList }
        text.utf8ByteSize)
  | .unclosed => .error (.problem .unterminatedComment reader.line)
  | .fixed kind text => pure ((reader.push kind text).advance text.utf8ByteSize)

def round (reader : Reader) : Except Stop Reader := do
  let rest ← reader.remainder
  match select? rest with
  | some pattern => reader.handle pattern
  | none =>
      match reader.position.current? with
      | some c =>
          .error (.problem
            (.unrecognisedToken (String.singleton c)) reader.line)
      | none => .error .lost

/-- Rounds until the position is at the end of the text; nothing where `bound`
rounds are not enough. -/
def readWithin : Nat → Reader → Option (Except Stop Reader)
  | 0, reader => if reader.position.atEnd then some (.ok reader) else none
  | bound + 1, reader =>
      if reader.position.atEnd then some (.ok reader)
      else
        match reader.round with
        | .ok next => readWithin bound next
        | .error stop => some (.error stop)

end Reader

/-- The reader on a text gets to this state in a number of rounds. -/
inductive Reached (source : String) : Nat → Reader → Prop where
  | start : Reached source 0 (.start source)
  | round {count : Nat} {reader next : Reader} :
      Reached source count reader → reader.position.atEnd = false →
        reader.round = .ok next → Reached source (count + 1) next

/-! ## Matches -/

section Matches

variable {shape : Shape} {accepts : Char → Bool} {c closing : Char}
  {rest text body behind : List Char}

theorem takeWhile_ne_append (hbody : closing ∉ body) (behind : List Char) :
    (body ++ closing :: behind).takeWhile (· ≠ closing) = body := by
  have hall : ∀ c ∈ body, decide (c ≠ closing) = true := by
    intro c hc
    exact decide_eq_true fun heq => hbody (heq ▸ hc)
  rw [List.takeWhile_append_of_pos hall]
  simp

theorem Shape.match?_enclosed (opening : Char) (hbody : closing ∉ body)
    (behind : List Char) :
    (Shape.enclosed opening closing).match?
    (opening :: (body ++ closing :: behind)) =
      some (opening :: body ++ [closing]) := by
  simp only [match?, takeWhile_ne_append hbody, List.mem_append, List.mem_cons,
    true_or, or_true, and_self, if_true]

theorem Shape.matches_of_match? (hmatch : shape.match? rest = some text) :
    shape.Matches rest text := by
  cases shape with
  | run accepts =>
      rw [match?] at hmatch
      split at hmatch
      · cases hmatch
      · next hne =>
          cases hmatch
          refine ⟨List.takeWhile_prefix accepts,
            ⟨hne, fun c => List.mem_takeWhile_imp⟩, ?_⟩
          rintro other ⟨behind, rfl⟩ ⟨-, hall⟩
          rw [List.takeWhile_append_of_pos hall, List.length_append]
          exact Nat.le_add_right _ _
  | enclosed opening closing =>
      cases rest with
      | nil => cases hmatch
      | cons c rest =>
          have hcond : c = opening ∧ closing ∈ rest := by
            by_contra hnot
            rw [match?, if_neg hnot] at hmatch
            cases hmatch
          obtain ⟨rfl, hmem⟩ := hcond
          obtain ⟨body, behind, rfl, hbody⟩ := List.eq_append_cons_of_mem hmem
          rw [match?_enclosed c hbody] at hmatch
          cases hmatch
          refine ⟨⟨behind, by simp⟩, ⟨body, hbody, rfl⟩, ?_⟩
          rintro _ ⟨after, hfront⟩ ⟨inner, hinner, rfl⟩
          have hsplit : inner ++ closing :: after =
              body ++ closing :: behind := by
            simpa using hfront
          have hsame := takeWhile_ne_append hinner after
          rw [hsplit, takeWhile_ne_append hbody] at hsame
          rw [hsame]
  | literal word =>
      rw [match?] at hmatch
      split at hmatch
      · next hfront =>
          cases hmatch
          refine ⟨hfront, rfl, ?_⟩
          rintro other - rfl
          exact Nat.le_refl _
      · cases hmatch

@[simp] theorem Shape.match?_run_cons :
    (Shape.run accepts).match? (c :: rest) =
      if accepts c then some (c :: rest.takeWhile accepts) else none := by
  by_cases haccepts : accepts c = true <;> simp [match?, haccepts]

end Matches

/-! ## The choice of a pattern -/

/-- The piece that a handler makes of a match; none where it reports a comment
that is not closed. -/
def Handling.piece? : Handling → List Char → Option Piece
  | .word, text => some (.token (wordKind text) text)
  | .number, text => some (.token .number text)
  | .skip, text => some (.gap text)
  | .unclosed, _ => none
  | .fixed kind text, _ => some (.token kind text.toList)

theorem literal_of_fixed : ∀ pattern ∈ patterns, ∀ kind text,
    pattern.handling = .fixed kind text →
      pattern.shape = .literal text.toList := by
  simp [patterns]

/-- A handler makes a piece of the very text that its pattern matches, the known
symbols included. -/
theorem text_of_piece? {pattern : Pattern} (hpattern : pattern ∈ patterns)
    {rest text : List Char} (hmatch : pattern.shape.match? rest = some text)
    {piece : Piece} (hpiece : pattern.handling.piece? text = some piece) :
    piece.text = text := by
  cases hhandling : pattern.handling with
  | fixed kind symbol =>
      rw [literal_of_fixed pattern hpattern kind symbol hhandling] at hmatch
      rw [hhandling] at hpiece
      cases hpiece
      exact (Shape.matches_of_match? hmatch).describes.symm
  | unclosed =>
      rw [hhandling] at hpiece
      cases hpiece
  | word | number | skip =>
      rw [hhandling] at hpiece
      cases hpiece
      rfl

/-- The first pattern that matches has this piece of the text as its match. -/
def Selects (rest : List Char) (piece : Piece) : Prop :=
  ∃ pattern, select? rest = some pattern ∧ pattern.shape.match? rest =
    some piece.text ∧
    pattern.handling.piece? piece.text = some piece

section Selection

variable {c : Char} {rest after : List Char} {piece : Piece}

theorem comment?_eq_none_iff : comment? rest = none ↔ '}' ∉ rest := by
  constructor
  · intro hnone hclosed
    obtain ⟨body, behind, rfl, hbody⟩ := List.eq_append_cons_of_mem hclosed
    rw [comment?_append hbody] at hnone
    cases hnone
  · intro hopen
    have hdrop : rest.dropWhile (· ≠ '}') = [] := by
      rw [List.dropWhile_eq_nil_iff]
      intro c hc
      exact decide_eq_true fun heq => hopen (heq ▸ hc)
    rw [comment?, hdrop]

theorem selects_of_comment? (hcomment : comment? rest = some (piece, after)) :
    Selects ('{' :: rest) piece := by
  have hclosed : '}' ∈ rest := by
    by_contra hopen
    rw [comment?_eq_none_iff.mpr hopen] at hcomment
    cases hcomment
  obtain ⟨body, behind, rfl, hbody⟩ := List.eq_append_cons_of_mem hclosed
  rw [comment?_append hbody] at hcomment
  cases hcomment
  refine ⟨⟨.enclosed '{' '}', .skip⟩, ?_,
    Shape.match?_enclosed '{' hbody _, rfl⟩
  simp [select?, patterns, Shape.match?_enclosed, hbody, Text.isBlank,
    Text.blankRanges]

theorem selects_of_symbol? (hsymbol : symbol? c rest = some (piece, after)) :
    Selects (c :: rest) piece := by
  unfold symbol? at hsymbol
  split at hsymbol
  · cases hsymbol
    exact ⟨_, rfl, rfl, rfl⟩
  · obtain ⟨kind, hkind, heq⟩ := Option.map_eq_some_iff.mp hsymbol
    cases heq
    unfold symbolKind? at hkind
    split at hkind <;> cases hkind <;> exact ⟨_, rfl, rfl, rfl⟩

/-- The patterns and the scanner agree on the next piece. -/
theorem selects_of_next? (hnext : next? c rest = some (piece, after)) :
    Selects (c :: rest) piece := by
  unfold next? at hnext
  split at hnext
  · next hletter =>
      cases hnext
      exact ⟨⟨.run Char.isAlpha, .word⟩, by simp [select?, patterns, hletter],
        by simp [hletter, Piece.text], rfl⟩
  split at hnext
  · next hletter hdigit =>
      cases hnext
      exact ⟨⟨.run Char.isDigit, .number⟩,
        by simp [select?, patterns, hletter, hdigit],
        by simp [hdigit, Piece.text], rfl⟩
  split at hnext
  · next hletter hdigit hblank =>
      cases hnext
      exact ⟨⟨.run Text.isBlank, .skip⟩,
        by simp [select?, patterns, hletter, hdigit, hblank],
        by simp [hblank, Piece.text], rfl⟩
  split at hnext
  · next hbrace =>
      subst hbrace
      exact selects_of_comment? hnext
  · exact selects_of_symbol? hnext

theorem select?_of_next?_none (hnext : next? c rest = none) :
    select? (c :: rest) =
      if c = '{' then some ⟨.literal ['{'], .unclosed⟩ else none := by
  unfold next? at hnext
  split at hnext
  · cases hnext
  split at hnext
  · cases hnext
  split at hnext
  · cases hnext
  next hletter hdigit hblank =>
    split at hnext
    · next hbrace =>
        subst hbrace
        have hopen := comment?_eq_none_iff.mp hnext
        simp [select?, patterns, hletter, hdigit, hblank, Shape.match?, hopen]
    · next hbrace =>
        rw [if_neg hbrace]
        have hfirst : ¬ [':', '='] <+: c :: rest := by
          rintro ⟨behind, hfront⟩
          cases hfront
          cases hnext
        have hother : ∀ d kind, symbolKind? d = some kind → d ≠ c := by
          rintro _ kind hkind rfl
          unfold symbol? at hnext
          split at hnext
          · cases hnext
          · rw [hkind] at hnext
            cases hnext
        simp [select?, patterns, hletter, hdigit, hblank, Shape.match?, hfirst,
          hbrace, Ne.symm hbrace, hother '=' _ rfl, hother '<' _ rfl,
          hother '(' _ rfl, hother ')' _ rfl, hother ';' _ rfl,
          hother '+' _ rfl, hother '-' _ rfl, hother '*' _ rfl,
          hother '/' _ rfl]

end Selection

/-! ## Positions in a text -/

theorem dropBytes?_cons {count : Nat} {c : Char} (hle : c.utf8Size ≤ count)
    (rest : List Char) :
    Text.dropBytes? count (c :: rest) =
      Text.dropBytes? (count - c.utf8Size) rest := by
  cases count with
  | zero => exact absurd hle (Nat.not_le.mpr c.utf8Size_pos)
  | succ count => rw [Text.dropBytes?, if_pos hle]

theorem dropBytes?_append (before rest : List Char) :
    Text.dropBytes? (String.utf8Len before) (before ++ rest) = some rest := by
  induction before with
  | nil => cases rest <;> rfl
  | cons c before ih =>
      rw [List.cons_append, String.utf8Len_cons,
        dropBytes?_cons (Nat.le_add_left _ _), Nat.add_sub_cancel]
      exact ih

theorem utf8Len_toList (text : String) :
    String.utf8Len text.toList = text.utf8ByteSize := by
  rw [← String.utf8ByteSize_ofList, String.ofList_toList]

theorem utf8Len_pos {text : List Char} (hne : text ≠ []) :
    0 < String.utf8Len text :=
  Nat.pos_of_ne_zero (mt String.utf8Len_eq_zero.mp hne)

/-! ## Rounds -/

theorem lineAfter_concat (line : Nat) (pieces : List Piece) (piece : Piece) :
    lineAfter line (pieces ++ [piece]) =
      lineAfter line pieces + Text.lineFeeds piece.text := by
  simp [lineAfter]

theorem label_concat (line : Nat) (pieces : List Piece) (piece : Piece) :
    label line (pieces ++ [piece]) =
      label line pieces ++ label (lineAfter line pieces) [piece] := by
  induction pieces generalizing line with
  | nil => rfl
  | cons first pieces ih =>
      cases first with
      | token kind text => exact congrArg (List.cons _) (ih _)
      | gap text => exact ih _

theorem lineFeeds_token {kind : Token.Kind} {text : List Char}
    (hlexeme : Lexeme (.token kind text)) : Text.lineFeeds text = 0 := by
  refine List.count_eq_zero.mpr fun hmem => ?_
  have hblank := hlexeme.not_blank hmem
  revert hblank
  decide

namespace Reader

/-- The reader behind a piece. -/
def behind (reader : Reader) : Piece → Reader
  | .token kind text =>
      (reader.push kind (String.ofList text)).advance (String.utf8Len text)
  | .gap text =>
      advance { reader with line := reader.line + Text.lineFeeds text }
        (String.utf8Len text)

theorem position_behind (reader : Reader) (piece : Piece) :
    (reader.behind piece).position = reader.position.advance
    (String.utf8Len piece.text) := by
  cases piece <;> rfl

/-- A handler whose pattern matches at the position moves the reader behind the
piece that it makes of the match. -/
theorem handle_eq {reader : Reader} {rest text : List Char} {pattern : Pattern}
    (hremainder : reader.position.remainder? = some rest)
    (hmatch : pattern.shape.match? rest = some text) :
    reader.handle pattern =
      match pattern.handling.piece? text with
      | some piece => .ok (reader.behind piece)
      | none => .error (.problem .unterminatedComment reader.line) := by
  have hmatched : reader.matched pattern.shape = .ok (String.ofList text) := by
    unfold matched remainder
    rw [hremainder]
    simp [bind, Except.bind, pure, Except.pure, hmatch]
  unfold handle
  cases hhandling : pattern.handling with
  | word | number | skip =>
      simp only [hmatched, bind, Except.bind, pure, Except.pure,
        Handling.piece?, behind, String.toList_ofList,
        String.utf8ByteSize_ofList]
  | unclosed => rfl
  | fixed kind symbol =>
      simp only [pure, Except.pure, Handling.piece?, behind,
        String.ofList_toList, utf8Len_toList]

/-- A handler that gives a reader has moved it by the very text that its pattern
matches at the position. -/
theorem position_of_handle {reader next : Reader} {rest text : List Char}
    {pattern : Pattern} (hpattern : pattern ∈ patterns)
    (hremainder : reader.position.remainder? = some rest)
    (hmatch : pattern.shape.match? rest = some text)
    (hhandle : reader.handle pattern = .ok next) :
    next.position = reader.position.advance (String.utf8Len text) := by
  rw [handle_eq hremainder hmatch] at hhandle
  cases hpiece : pattern.handling.piece? text with
  | none =>
      rw [hpiece] at hhandle
      cases hhandle
  | some piece =>
      rw [hpiece] at hhandle
      cases hhandle
      rw [position_behind, text_of_piece? hpattern hmatch hpiece]

/-- The reader has passed these pieces of the text and stands before `rest`. -/
structure Stands (source : String) (pieces : List Piece) (rest : List Char)
    (reader : Reader) : Prop where
  kept : reader.position.source = source
  split : source.toList = pieces.flatMap Piece.text ++ rest
  offset : reader.position.offset = String.utf8Len (pieces.flatMap Piece.text)
  line : reader.line = lineAfter 1 pieces
  tokens : reader.tokens = label 1 pieces

namespace Stands

variable {source : String} {pieces : List Piece} {rest after : List Char}
  {reader : Reader} {piece : Piece} {c : Char}

theorem start (source : String) :
    Stands source [] source.toList (.start source) := by
  constructor <;> rfl

theorem isValid (hstands : reader.Stands source pieces rest) :
    (⟨reader.position.offset⟩ : String.Pos.Raw).IsValid source := by
  rw [String.Pos.Raw.isValid_iff_exists_append]
  refine ⟨String.ofList (pieces.flatMap Piece.text), String.ofList rest, ?_, ?_⟩
  · rw [← String.ofList_append, ← hstands.split, String.ofList_toList]
  · rw [hstands.offset, String.rawEndPos, String.utf8ByteSize_ofList]

theorem remainder? (hstands : reader.Stands source pieces rest) :
    reader.position.remainder? = some rest := by
  unfold Text.Position.remainder?
  rw [hstands.kept, hstands.split, hstands.offset]
  exact dropBytes?_append _ rest

theorem atEnd_iff (hstands : reader.Stands source pieces rest) :
    reader.position.atEnd = true ↔ rest = [] := by
  unfold Text.Position.atEnd
  rw [decide_eq_true_iff, hstands.kept, hstands.offset, ← utf8Len_toList,
    hstands.split, String.utf8Len_append, ← String.utf8Len_eq_zero]
  omega

theorem behind (hstands : reader.Stands source pieces rest)
    (hreads : Reads rest piece after) :
    (reader.behind piece).Stands source (pieces ++ [piece]) after := by
  have hsplit := hstands.split
  rw [hreads.split_eq] at hsplit
  constructor
  · rw [position_behind]
    exact hstands.kept
  · simpa using hsplit
  · rw [position_behind, List.flatMap_append,
      String.utf8Len_append, ← hstands.offset, List.flatMap_singleton]
    rfl
  · rw [lineAfter_concat, ← hstands.line]
    cases piece with
    | token kind text =>
        -- The reader counts lines in gaps only, and no other lexeme has a line
        -- feed.
        rw [Piece.text, lineFeeds_token hreads.lexeme]
        rfl
    | gap text => rfl
  · rw [label_concat, ← hstands.tokens, ← hstands.line]
    cases piece with
    | token kind text => rfl
    | gap text => exact (List.append_nil _).symm

theorem round_eq (hstands : reader.Stands source pieces (c :: rest)) :
    reader.round =
      match next? c rest with
      | some (piece, _) => .ok (reader.behind piece)
      | none => .error (.problem (problemAt c) reader.line) := by
  have hremainder : reader.remainder = .ok (c :: rest) := by
    unfold remainder
    rw [hstands.remainder?]
  have hround : reader.round =
      match select? (c :: rest) with
      | some pattern => reader.handle pattern
      | none =>
          .error (.problem (.unrecognisedToken (String.singleton c))
            reader.line) := by
    unfold round
    rw [hremainder]
    simp only [bind, Except.bind, Text.Position.current?, hstands.remainder?,
      Option.map_some, List.headD_cons]
  rw [hround]
  cases hnext : next? c rest with
  | some found =>
      obtain ⟨pattern, hselect, hmatch, hpiece⟩ := selects_of_next? hnext
      rw [hselect]
      simp only [handle_eq hstands.remainder? hmatch, hpiece]
  | none =>
      rw [select?_of_next?_none hnext]
      by_cases hbrace : c = '{'
      · rw [if_pos hbrace, problemAt, if_pos hbrace]
        rfl
      · rw [if_neg hbrace, problemAt, if_neg hbrace]

/-- Within as many rounds as there are characters left the reader stops, and
where the scanner does. -/
theorem readWithin_eq (hstands : reader.Stands source pieces rest) {bound : Nat}
    (hbound : rest.length ≤ bound) :
    ∃ final, final.Stands source (pieces ++ (Scanner.split rest).1)
      (Scanner.split rest).2 ∧
      reader.readWithin bound = some (match (Scanner.split rest).2 with
        | [] => .ok final
        | c :: _ => .error (.problem (problemAt c) final.line)) := by
  fun_induction Scanner.split rest generalizing reader pieces bound with
  | case1 =>
      refine ⟨reader, by simpa using hstands, ?_⟩
      have hend := hstands.atEnd_iff.mpr rfl
      cases bound <;> simp [readWithin, hend]
  | case2 c rest hnone =>
      obtain ⟨less, rfl⟩ := Nat.exists_eq_add_one.mpr (Nat.zero_lt_of_lt hbound)
      have hmore := mt hstands.atEnd_iff.mp (List.cons_ne_nil c rest)
      have hround := hstands.round_eq
      rw [hnone] at hround
      refine ⟨reader, by simpa using hstands, ?_⟩
      rw [readWithin, if_neg hmore, hround]
  | case3 c rest piece after hnext pieces' left hsplit ih =>
      obtain ⟨less, rfl⟩ := Nat.exists_eq_add_one.mpr (Nat.zero_lt_of_lt hbound)
      have hmore := mt hstands.atEnd_iff.mp (List.cons_ne_nil c rest)
      have hround := hstands.round_eq
      rw [hnext] at hround
      have hshorter := next?_length_lt hnext
      have hless : after.length ≤ less :=
        Nat.le_of_lt_succ (Nat.lt_of_lt_of_le hshorter hbound)
      obtain ⟨final, hfinal, hresult⟩ :=
        ih (hstands.behind ⟨c, rest, rfl, hnext⟩) hless
      rw [hsplit] at hfinal hresult
      refine ⟨final, ?_, ?_⟩
      · simpa using hfinal
      · rw [readWithin, if_neg hmore, hround]
        exact hresult

end Stands

end Reader

/-- At most one round for each character that is behind the reader. -/
theorem Reached.stands {source : String} {count : Nat} {reader : Reader}
    (hreached : Reached source count reader) :
    ∃ pieces rest, reader.Stands source pieces rest ∧
      count + rest.length ≤ source.length := by
  induction hreached with
  | start =>
      refine ⟨[], source.toList, .start source, ?_⟩
      rw [String.length_toList, Nat.zero_add]
  | @round count reader next _ hmore hround ih =>
      obtain ⟨pieces, rest, hstands, hlength⟩ := ih
      cases rest with
      | nil =>
          rw [hstands.atEnd_iff.mpr rfl] at hmore
          cases hmore
      | cons c rest =>
          rw [hstands.round_eq] at hround
          cases hnext : next? c rest with
          | none =>
              rw [hnext] at hround
              cases hround
          | some found =>
              obtain ⟨piece, after⟩ := found
              rw [hnext] at hround
              cases hround
              have hshorter := next?_length_lt hnext
              exact ⟨_, after, hstands.behind ⟨c, rest, rfl, hnext⟩, by omega⟩

/-! ## The whole text -/

theorem not_describes_nil :
    ∀ pattern ∈ patterns, ¬ pattern.shape.Describes [] := by
  simp [patterns, Shape.Describes]

/-- What a reader has to tell when it stops. -/
def Reader.answer? (file : Option String) :
    Except Stop Reader → Option (Except Diagnostic (List Token))
  | .ok final => some (.ok (final.tokens ++ [Token.endOfInput final.line]))
  | .error (.problem problem line) =>
      some (.error ⟨problem, line, file.getD defaultFile⟩)
  | .error .lost => none

/-- In every state that a reader gets to, its position is between two characters
of the text or at one of its ends, there is text at the position, and no more
rounds have passed than characters.  Every pattern that matches there has a
handler that moves the position by the bytes of the match, of which there is one
at least, or reports a problem.  Within as many rounds as the text has
characters the reader stops with what the scanner makes of the text. -/
theorem reading_position_passes_matches (source : String)
    (file : Option String) :
    (∀ count reader, Reached source count reader →
      (⟨reader.position.offset⟩ : String.Pos.Raw).IsValid source ∧
      reader.position.offset ≤ source.utf8ByteSize ∧
      ∃ rest, reader.position.remainder? = some rest ∧
        count + rest.length ≤ source.length ∧
        ∀ pattern ∈ patterns, (pattern.shape.match? rest).isSome →
          ∀ next, reader.handle pattern = .ok next →
            ∃ text, pattern.shape.Matches rest text ∧ 0 < String.utf8Len text ∧
              next.position.offset =
                reader.position.offset + String.utf8Len text) ∧
    ∃ result, (Reader.start source).readWithin source.length = some result ∧
      Reader.answer? file result = some (tokenize source file) := by
  constructor
  · intro count reader hreached
    obtain ⟨pieces, rest, hstands, hlength⟩ := hreached.stands
    refine ⟨hstands.isValid, hstands.isValid.le_utf8ByteSize, rest,
      hstands.remainder?, hlength, ?_⟩
    intro pattern hpattern hsome next hhandle
    obtain ⟨text, hmatch⟩ := Option.isSome_iff_exists.mp hsome
    have hmatches := Shape.matches_of_match? hmatch
    have hne : text ≠ [] := by
      rintro rfl
      exact not_describes_nil pattern hpattern hmatches.describes
    refine ⟨text, hmatches, utf8Len_pos hne, ?_⟩
    rw [Reader.position_of_handle hpattern hstands.remainder? hmatch hhandle]
    rfl
  · obtain ⟨final, hfinal, hresult⟩ :=
      (Reader.Stands.start source).readWithin_eq
        (Nat.le_of_eq String.length_toList)
    refine ⟨_, hresult, ?_⟩
    rw [tokenize, scan]
    cases hsplit : split source.toList with
    | mk pieces left =>
        rw [hsplit, List.nil_append] at hfinal
        cases left with
        | nil => simp only [Reader.answer?, hfinal.tokens, hfinal.line]
        | cons c rest => simp only [Reader.answer?, hfinal.line]

-- A comment and a wide blank: four bytes and three.
example : ((Reader.start "\x7bé\x7d\u3000x").round >>=
    Reader.round).toOption.map
    (·.position.offset) = some 7 := by decide

end TinyCompiler.Scanner
