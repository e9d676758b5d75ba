import Mathlib.Data.List.TakeWhile
import TinyCompiler.Token.Scanner

/-!
# The lexical grammar

A text is cut from the left into lexemes, each time into the longest one that
the text starts with.  Between the tokens stand runs of white space and
comments; a comment goes to the first closing brace.  The tokens of a text are
those lexemes that are not gaps, each on the line that is counted by the line
feeds before it.  Where no lexeme starts, the text is wrong.
-/

namespace TinyCompiler.Scanner

/-- The words that are tokens of their own. -/
def reservedWords : List (String × Token.Kind) :=
  [("if", .ifWord), ("then", .thenWord), ("else", .elseWord), ("end", .endWord),
    ("repeat", .repeatWord), ("until", .untilWord), ("read", .readWord),
    ("write", .writeWord)]

def symbols : List (String × Token.Kind) :=
  [(":=", .assignment), ("=", .equals), ("<", .less), ("(", .openParen),
    (")", .closeParen), (";", .semicolon), ("+", .plus), ("-", .dash),
    ("*", .star), ("/", .slash)]

inductive Lexeme : Piece → Prop where
  | blanks {text : List Char} :
      text ≠ [] → (∀ c ∈ text, Text.isBlank c = true) → Lexeme (.gap text)
  | comment {body : List Char} : '}' ∉ body →
      Lexeme (.gap ('{' :: body ++ ['}']))
  | reserved {word : String} {kind : Token.Kind} :
      (word, kind) ∈ reservedWords → Lexeme (.token kind word.toList)
  | identifier {text : List Char} :
      text ≠ [] → (∀ c ∈ text, c.isAlpha = true) →
        (∀ kind, (String.ofList text, kind) ∉ reservedWords) →
          Lexeme (.token .identifier text)
  | number {text : List Char} :
      text ≠ [] → (∀ c ∈ text, c.isDigit = true) → Lexeme (.token .number text)
  | symbol {text : String} {kind : Token.Kind} :
      (text, kind) ∈ symbols → Lexeme (.token kind text.toList)

/-- A piece is the longest lexeme that a text starts with, and `after` is the
text behind it. -/
structure Starts (text : List Char) (piece : Piece)
    (after : List Char) : Prop where
  split : text = piece.text ++ after
  lexeme : Lexeme piece
  longest : ∀ other behind, text = other.text ++ behind → Lexeme other →
    other.text.length ≤ piece.text.length

/-- The pieces that a text is cut into, and what is left where no piece
starts. -/
inductive Splits : List Char → List Piece → List Char → Prop where
  | stop {text : List Char} : (∀ piece after, ¬ Starts text piece after) →
      Splits text [] text
  | piece {text after left : List Char} {piece : Piece} {pieces : List Piece} :
      Starts text piece after → Splits after pieces left →
        Splits text (piece :: pieces) left

/-- The tokens among the pieces behind some text, each with the number of the
line on which its first character stands. -/
def tokensBehind (before : List Char) : List Piece → List Token
  | [] => []
  | .token kind text :: pieces =>
      ⟨kind, String.ofList text, 1 + Text.lineFeeds before⟩ ::
        tokensBehind (before ++ text) pieces
  | .gap text :: pieces => tokensBehind (before ++ text) pieces

/-! ## Classes of characters -/

theorem isAlpha_iff (c : Char) :
    c.isAlpha = true ↔ 65 ≤ c.toNat ∧ c.toNat ≤ 90 ∨ 97 ≤ c.toNat ∧
      c.toNat ≤ 122 := by
  have hclasses : c.isAlpha =
      (decide ('A'.val ≤ c.val ∧ c.val ≤ 'Z'.val) ||
        decide ('a'.val ≤ c.val) && decide (c.val ≤ 'z'.val)) := rfl
  simp [hclasses, UInt32.le_iff_toNat_le]

theorem isDigit_iff (c : Char) :
    c.isDigit = true ↔ 48 ≤ c.toNat ∧ c.toNat ≤ 57 := by
  simp [Char.isDigit, UInt32.le_iff_toNat_le]

theorem not_letter_of_digit {c : Char} (hdigit : c.isDigit = true) :
    ¬ c.isAlpha = true := by
  rw [isDigit_iff] at hdigit
  rw [isAlpha_iff]
  omega

theorem not_letter_digit_of_blank {c : Char} (hblank : Text.isBlank c = true) :
    ¬ c.isAlpha = true ∧ ¬ c.isDigit = true := by
  simp [Text.isBlank, Text.blankRanges] at hblank
  rw [isAlpha_iff, isDigit_iff]
  omega

theorem ofReserved?_eq_some_iff {word : String} {kind : Token.Kind} :
    Token.Kind.ofReserved? word = some kind ↔ (word, kind) ∈ reservedWords := by
  constructor
  · intro hkind
    unfold Token.Kind.ofReserved? at hkind
    split at hkind <;> cases hkind <;> simp [reservedWords]
  · intro hmem
    simp only [reservedWords, List.mem_cons, Prod.mk.injEq, List.not_mem_nil,
      or_false] at hmem
    rcases hmem with ⟨rfl, rfl⟩ | ⟨rfl, rfl⟩ | ⟨rfl, rfl⟩ | ⟨rfl, rfl⟩ |
      ⟨rfl, rfl⟩ | ⟨rfl, rfl⟩ | ⟨rfl, rfl⟩ | ⟨rfl, rfl⟩ <;> rfl

theorem wordKind_of_reserved {word : String} {kind : Token.Kind}
    (hreserved : (word, kind) ∈ reservedWords) :
    wordKind word.toList = kind := by
  rw [wordKind, String.ofList_toList, ofReserved?_eq_some_iff.mpr hreserved]
  rfl

theorem wordKind_of_not_reserved {word : List Char}
    (hnot : ∀ kind, (String.ofList word, kind) ∉ reservedWords) :
    wordKind word = .identifier := by
  have hnone : Token.Kind.ofReserved? (String.ofList word) = none := by
    rw [Option.eq_none_iff_forall_ne_some]
    intro kind hkind
    exact hnot kind (ofReserved?_eq_some_iff.mp hkind)
  rw [wordKind, hnone]
  rfl

theorem reservedWords_letters : ∀ entry ∈ reservedWords,
    entry.1.toList ≠ [] ∧ ∀ c ∈ entry.1.toList, c.isAlpha = true := by
  simp [reservedWords]

theorem symbols_characters : ∀ entry ∈ symbols, ∀ c ∈ entry.1.toList,
    c.isAlpha = false ∧ c.isDigit = false ∧ Text.isBlank c = false := by
  simp [symbols, Text.isBlank, Text.blankRanges]

/-! ## One piece -/

/-- The scanner cuts this piece off a text. -/
def Reads (text : List Char) (piece : Piece) (after : List Char) : Prop :=
  ∃ c rest, text = c :: rest ∧ next? c rest = some (piece, after)

namespace Reads

variable {text after otherAfter : List Char} {piece other : Piece}

theorem unique (hreads : Reads text piece after)
    (hother : Reads text other otherAfter) :
    piece = other ∧ after = otherAfter := by
  obtain ⟨c, rest, rfl, hnext⟩ := hreads
  obtain ⟨_, _, hsame, hotherNext⟩ := hother
  cases hsame
  rw [hnext] at hotherNext
  cases hotherNext
  exact ⟨rfl, rfl⟩

theorem split_eq (hreads : Reads text piece after) :
    text = piece.text ++ after := by
  obtain ⟨c, rest, rfl, hnext⟩ := hreads
  exact next?_eq_append hnext

end Reads

theorem next?_letter {c : Char} (hletter : c.isAlpha = true)
    (rest : List Char) :
    next? c rest = some (.token (wordKind (c :: rest.takeWhile Char.isAlpha))
      (c :: rest.takeWhile Char.isAlpha), rest.dropWhile Char.isAlpha) := by
  simp [next?, hletter]

theorem next?_digit {c : Char} (hdigit : c.isDigit = true) (rest : List Char) :
    next? c rest = some (.token .number (c :: rest.takeWhile Char.isDigit),
      rest.dropWhile Char.isDigit) := by
  simp [next?, not_letter_of_digit hdigit, hdigit]

theorem next?_blank {c : Char} (hblank : Text.isBlank c = true)
    (rest : List Char) :
    next? c rest = some (.gap (c :: rest.takeWhile Text.isBlank),
      rest.dropWhile Text.isBlank) := by
  simp [next?, not_letter_digit_of_blank hblank, hblank]

/-- A run of characters of one class is continued as far as the class goes. -/
theorem reads_run {p : Char → Bool} (make : List Char → Piece)
    (hnext : ∀ c rest, p c = true →
      next? c rest = some (make (c :: rest.takeWhile p), rest.dropWhile p))
    {text : List Char} (hne : text ≠ []) (hall : ∀ c ∈ text, p c = true)
    (behind : List Char) :
    Reads (text ++ behind) (make (text ++ behind.takeWhile p))
      (behind.dropWhile p) := by
  obtain ⟨c, rest, rfl⟩ := List.exists_cons_of_ne_nil hne
  obtain ⟨hfirst, hrest⟩ := List.forall_mem_cons.mp hall
  refine ⟨c, rest ++ behind, rfl, ?_⟩
  rw [hnext c _ hfirst, List.takeWhile_append_of_pos hrest,
    List.dropWhile_append_of_pos hrest]
  rfl

theorem comment?_append {body : List Char} (hbody : '}' ∉ body)
    (behind : List Char) :
    comment? (body ++ '}' :: behind) =
      some (.gap ('{' :: body ++ ['}']), behind) := by
  have hall : ∀ c ∈ body, (decide (c ≠ '}')) = true := by
    intro c hc
    exact decide_eq_true (fun heq => hbody (heq ▸ hc))
  unfold comment?
  rw [List.dropWhile_append_of_pos hall, List.takeWhile_append_of_pos hall]
  simp

theorem reads_symbol {text : String} {kind : Token.Kind}
    (hsymbol : (text, kind) ∈ symbols) (behind : List Char) :
    Reads (text.toList ++ behind) (.token kind text.toList) behind := by
  simp only [symbols, List.mem_cons, Prod.mk.injEq, List.not_mem_nil,
    or_false] at hsymbol
  rcases hsymbol
    with ⟨rfl, rfl⟩ | ⟨rfl, rfl⟩ | ⟨rfl, rfl⟩ | ⟨rfl, rfl⟩ | ⟨rfl, rfl⟩ |
    ⟨rfl, rfl⟩ | ⟨rfl, rfl⟩ | ⟨rfl, rfl⟩ | ⟨rfl, rfl⟩ | ⟨rfl, rfl⟩
  all_goals exact ⟨_, _, rfl, rfl⟩

/-- A text that starts with a lexeme is cut behind it or further on. -/
theorem Lexeme.reads_append {piece : Piece} (hlexeme : Lexeme piece)
    (behind : List Char) :
    ∃ longer after, Reads (piece.text ++ behind) longer after ∧
      piece.text.length ≤ longer.text.length ∧
        (behind = [] → longer = piece) := by
  cases hlexeme with
  | @blanks text hne hall =>
      refine ⟨_, _, reads_run .gap (fun c rest hc => next?_blank hc rest) hne
        hall behind, ?_, ?_⟩
      · simp [Piece.text]
      · rintro rfl
        simp
  | @comment body hbody =>
      refine ⟨_, behind,
        ⟨'{', body ++ '}' :: behind, ?_, comment?_append hbody behind⟩, ?_, ?_⟩
      · simp [Piece.text]
      · simp [Piece.text]
      · simp
  | @reserved word kind hreserved =>
      obtain ⟨hne, hall⟩ := reservedWords_letters _ hreserved
      refine ⟨_, _, reads_run (fun word => .token (wordKind word) word)
        (fun c rest hc => next?_letter hc rest) hne hall behind, ?_, ?_⟩
      · simp [Piece.text]
      · rintro rfl
        simp [wordKind_of_reserved hreserved]
  | @identifier text hne hall hnot =>
      refine ⟨_, _, reads_run (fun word => .token (wordKind word) word)
        (fun c rest hc => next?_letter hc rest) hne hall behind, ?_, ?_⟩
      · simp [Piece.text]
      · rintro rfl
        simp [wordKind_of_not_reserved hnot]
  | @number text hne hall =>
      refine ⟨_, _,
        reads_run (.token .number) (fun c rest hc => next?_digit hc rest)
        hne hall behind, ?_, ?_⟩
      · simp [Piece.text]
      · rintro rfl
        simp
  | symbol hsymbol =>
      exact ⟨_, behind, reads_symbol hsymbol behind, le_rfl, fun _ => rfl⟩

theorem Lexeme.text_ne_nil {piece : Piece} (hlexeme : Lexeme piece) :
    piece.text ≠ [] := by
  obtain ⟨longer, after, ⟨c, rest, -, hnext⟩, -, hsame⟩ :=
    hlexeme.reads_append []
  rw [hsame rfl] at hnext
  exact next?_text_ne_nil hnext

theorem comment?_lexeme {rest after : List Char} {piece : Piece}
    (hcomment : comment? rest = some (piece, after)) : Lexeme piece := by
  unfold comment? at hcomment
  split at hcomment
  · cases hcomment
  · next brace tail hdrop =>
      cases hcomment
      have hbrace : brace = '}' := by
        have hhead := List.head?_dropWhile_not (· ≠ '}') rest
        rw [hdrop] at hhead
        simpa using hhead
      subst hbrace
      refine .comment fun hmem => ?_
      simpa using List.mem_takeWhile_imp hmem

theorem symbol?_lexeme {c : Char} {rest after : List Char} {piece : Piece}
    (hsymbol : symbol? c rest = some (piece, after)) : Lexeme piece := by
  unfold symbol? at hsymbol
  split at hsymbol
  · cases hsymbol
    exact @Lexeme.symbol ":=" _ (by simp [symbols])
  · obtain ⟨kind, hkind, heq⟩ := Option.map_eq_some_iff.mp hsymbol
    cases heq
    have hmem : (String.singleton c, kind) ∈ symbols := by
      unfold symbolKind? at hkind
      split at hkind <;> cases hkind <;> decide
    exact String.toList_singleton c ▸ Lexeme.symbol hmem

theorem takeWhile_run {p : Char → Bool} {c : Char} (hc : p c = true)
    (rest : List Char) :
    ∀ d ∈ c :: rest.takeWhile p, p d = true := by
  refine List.forall_mem_cons.mpr ⟨hc, ?_⟩
  intro d hd
  exact List.mem_takeWhile_imp hd

theorem Reads.lexeme {text after : List Char} {piece : Piece}
    (hreads : Reads text piece after) :
    Lexeme piece := by
  obtain ⟨c, rest, -, hnext⟩ := hreads
  unfold next? at hnext
  split at hnext
  · next hletter =>
      cases hnext
      have hall := takeWhile_run hletter rest
      by_cases hreserved : ∃ kind,
          (String.ofList (c :: rest.takeWhile Char.isAlpha), kind) ∈
          reservedWords
      · obtain ⟨kind, hmem⟩ := hreserved
        have hlexeme := Lexeme.reserved hmem
        have hkind := wordKind_of_reserved hmem
        rw [String.toList_ofList] at hlexeme hkind
        rw [hkind]
        exact hlexeme
      · have hnot := not_exists.mp hreserved
        rw [wordKind_of_not_reserved hnot]
        exact .identifier (List.cons_ne_nil _ _) hall hnot
  split at hnext
  · next hdigit =>
      cases hnext
      have hall := takeWhile_run hdigit rest
      exact .number (List.cons_ne_nil _ _) hall
  split at hnext
  · next hblank =>
      cases hnext
      exact .blanks (List.cons_ne_nil _ _) (takeWhile_run hblank rest)
  split at hnext
  · exact comment?_lexeme hnext
  · exact symbol?_lexeme hnext

/-- The scanner cuts off the longest lexeme, and nothing where no lexeme
starts. -/
theorem reads_iff_starts {text after : List Char} {piece : Piece} :
    Reads text piece after ↔ Starts text piece after := by
  constructor
  · intro hreads
    refine ⟨hreads.split_eq, hreads.lexeme, ?_⟩
    rintro other behind rfl hother
    obtain ⟨longer, rest, hlonger, hlength, -⟩ := hother.reads_append behind
    obtain ⟨rfl, -⟩ := hreads.unique hlonger
    exact hlength
  · rintro ⟨rfl, hlexeme, hlongest⟩
    obtain ⟨longer, rest, hreads, hlength, -⟩ := hlexeme.reads_append after
    have hsplit := hreads.split_eq
    have hback := hlongest longer rest hsplit hreads.lexeme
    obtain ⟨htext, rfl⟩ := List.append_inj hsplit (le_antisymm hlength hback)
    -- Both pieces are what the scanner makes of their common text.
    have hself : ∀ {piece}, Lexeme piece → ∃ after,
        Reads piece.text piece after := by
      intro piece hlexeme
      obtain ⟨same, after, hsame, -, hequal⟩ := hlexeme.reads_append []
      rw [List.append_nil, hequal rfl] at hsame
      exact ⟨after, hsame⟩
    obtain ⟨_, hpiece⟩ := hself hlexeme
    obtain ⟨_, hother⟩ := hself hreads.lexeme
    rw [htext] at hpiece
    obtain ⟨rfl, -⟩ := hpiece.unique hother
    exact hreads

/-! ## All pieces -/

theorem next?_eq_none_iff {c : Char} {rest : List Char} :
    next? c rest = none ↔ ∀ piece after, ¬ Starts (c :: rest) piece after := by
  simp only [← reads_iff_starts]
  constructor
  · rintro hnone piece after ⟨_, _, hsame, hnext⟩
    cases hsame
    rw [hnone] at hnext
    cases hnext
  · intro hnever
    rw [Option.eq_none_iff_forall_ne_some]
    rintro ⟨piece, after⟩ hnext
    exact hnever piece after ⟨c, rest, rfl, hnext⟩

theorem not_starts_nil (piece : Piece) (after : List Char) :
    ¬ Starts [] piece after := by
  rw [← reads_iff_starts]
  rintro ⟨c, rest, hnil, -⟩
  cases hnil

theorem splits_split (text : List Char) :
    Splits text (split text).1 (split text).2 := by
  fun_induction split text with
  | case1 => exact .stop not_starts_nil
  | case2 c rest hnone => exact .stop (next?_eq_none_iff.mp hnone)
  | case3 c rest piece after hnext pieces left hsplit ih =>
      rw [hsplit] at ih
      exact .piece (reads_iff_starts.mp ⟨c, rest, rfl, hnext⟩) ih

theorem Splits.unique {text left other : List Char} {pieces others : List Piece}
    (hsplits : Splits text pieces left) (hother : Splits text others other) :
    pieces = others ∧ left = other := by
  induction hsplits generalizing others with
  | stop hnone =>
      cases hother with
      | stop => exact ⟨rfl, rfl⟩
      | piece hstarts => exact absurd hstarts (hnone _ _)
  | piece hstarts _ ih =>
      cases hother with
      | stop hnone => exact absurd hstarts (hnone _ _)
      | piece hsame hrest =>
          obtain ⟨rfl, rfl⟩ :=
            (reads_iff_starts.mpr hstarts).unique (reads_iff_starts.mpr hsame)
          obtain ⟨rfl, rfl⟩ := ih hrest
          exact ⟨rfl, rfl⟩

theorem split_eq_iff {text left : List Char} {pieces : List Piece} :
    split text = (pieces, left) ↔ Splits text pieces left := by
  constructor
  · intro hsplit
    have hsplits := splits_split text
    rwa [hsplit] at hsplits
  · intro hsplits
    obtain ⟨hpieces, hleft⟩ := (splits_split text).unique hsplits
    exact Prod.ext hpieces hleft

/-! ## Lines -/

theorem lineFeeds_append (text other : List Char) :
    Text.lineFeeds (text ++ other) =
      Text.lineFeeds text + Text.lineFeeds other :=
  List.count_append

theorem label_eq_tokensBehind (before : List Char) (pieces : List Piece) :
    label (1 + Text.lineFeeds before) pieces = tokensBehind before pieces := by
  induction pieces generalizing before with
  | nil => rfl
  | cons piece pieces ih =>
      have hrest := ih (before ++ piece.text)
      rw [lineFeeds_append, ← Nat.add_assoc] at hrest
      cases piece with
      | token kind text => exact congrArg (List.cons _) hrest
      | gap text => exact hrest

theorem lineAfter_eq (line : Nat) (pieces : List Piece) :
    lineAfter line pieces =
      line + Text.lineFeeds (pieces.flatMap Piece.text) := by
  induction pieces generalizing line with
  | nil => rfl
  | cons piece pieces ih =>
      rw [List.flatMap_cons, lineFeeds_append, ← Nat.add_assoc, ← ih]
      rfl

/-! ## Tokens -/

theorem Lexeme.kind_ne_end {kind : Token.Kind} {text : List Char}
    (hlexeme : Lexeme (.token kind text)) : kind ≠ .endOfInput := by
  cases hlexeme with
  | reserved hword =>
      rintro rfl
      simp [reservedWords] at hword
  | identifier => decide
  | number => decide
  | symbol hsymbol =>
      rintro rfl
      simp [symbols] at hsymbol

theorem Lexeme.not_blank {kind : Token.Kind} {text : List Char}
    (hlexeme : Lexeme (.token kind text)) {c : Char} (hc : c ∈ text) :
    Text.isBlank c = false := by
  rw [← Bool.not_eq_true]
  intro hblank
  obtain ⟨hletter, hdigit⟩ := not_letter_digit_of_blank hblank
  cases hlexeme with
  | reserved hword => exact hletter ((reservedWords_letters _ hword).2 c hc)
  | identifier _ hall => exact hletter (hall c hc)
  | number _ hall => exact hdigit (hall c hc)
  | symbol hsymbol =>
      rw [(symbols_characters _ hsymbol c hc).2.2] at hblank
      cases hblank

theorem Splits.kind_ne_end {text left : List Char} {pieces : List Piece}
    (hsplits : Splits text pieces left) (before : List Char) :
    ∀ token ∈ tokensBehind before pieces, token.kind ≠ .endOfInput := by
  induction hsplits generalizing before with
  | stop => simp [tokensBehind]
  | @piece text after left piece pieces hstarts _ ih =>
      cases piece with
      | token kind word =>
          exact List.forall_mem_cons.mpr ⟨hstarts.lexeme.kind_ne_end, ih _⟩
      | gap word => exact ih _

theorem Splits.lexeme_of_mem {text left : List Char} {pieces : List Piece}
    (hsplits : Splits text pieces left) (before : List Char) :
    ∀ token ∈ tokensBehind before pieces,
      Lexeme (.token token.kind token.text.toList) := by
  induction hsplits generalizing before with
  | stop => simp [tokensBehind]
  | @piece text after left piece pieces hstarts _ ih =>
      cases piece with
      | token kind word =>
          refine List.forall_mem_cons.mpr ⟨?_, ih _⟩
          rw [String.toList_ofList]
          exact hstarts.lexeme
      | gap word => exact ih _

section Tokenize

variable {source : String} {pieces : List Piece} (file : Option String)

theorem tokenize_of_splits_nil (hsplits : Splits source.toList pieces []) :
    tokenize source file = .ok (tokensBehind [] pieces ++
      [Token.endOfInput (1 + Text.lineFeeds source.toList)]) := by
  have hsplit := split_eq_iff.mpr hsplits
  have hwhole := split_append source.toList
  rw [hsplit, List.append_nil] at hwhole
  simp only [tokenize, scan, hsplit, lineAfter_eq, hwhole]
  rw [← label_eq_tokensBehind]
  rfl

theorem tokenize_of_splits_cons {c : Char} {rest : List Char}
    (hsplits : Splits source.toList pieces (c :: rest)) :
    tokenize source file = .error
      ⟨if c = '{' then .unterminatedComment else .unrecognisedToken
        (String.singleton c), 1 + Text.lineFeeds (pieces.flatMap Piece.text),
        file.getD "shell"⟩ := by
  simp only [tokenize, scan, split_eq_iff.mpr hsplits, lineAfter_eq]
  rfl

/-- Pieces make up the whole of a text that has tokens. -/
theorem splits_of_tokenize {file : Option String} {tokens : List Token}
    (htokens : tokenize source file = .ok tokens) :
    ∃ pieces, Splits source.toList pieces [] ∧
      tokens = tokensBehind [] pieces ++
        [Token.endOfInput (1 + Text.lineFeeds source.toList)] := by
  obtain ⟨pieces, left, hsplits⟩ : ∃ pieces left,
      Splits source.toList pieces left :=
    ⟨_, _, splits_split source.toList⟩
  cases left with
  | nil =>
      rw [tokenize_of_splits_nil file hsplits, Except.ok.injEq] at htokens
      exact ⟨pieces, hsplits, htokens.symm⟩
  | cons c rest =>
      rw [tokenize_of_splits_cons file hsplits] at htokens
      cases htokens

end Tokenize

/-- The tokens of a text are those of its pieces with one for the end of input
behind them, as long as pieces make up the whole text.  Otherwise the text is
wrong at the first place where no piece starts. -/
theorem tokenize_matches_lexical_grammar (source : String)
    (file : Option String) :
    (∀ tokens, tokenize source file = .ok tokens ↔
      ∃ pieces, Splits source.toList pieces [] ∧
        tokens = tokensBehind [] pieces ++
          [Token.endOfInput (1 + Text.lineFeeds source.toList)]) ∧
    ∀ diagnostic, tokenize source file = .error diagnostic ↔
      ∃ pieces c rest, Splits source.toList pieces (c :: rest) ∧
        diagnostic =
          ⟨if c = '{' then .unterminatedComment else .unrecognisedToken
            (String.singleton c),
            1 + Text.lineFeeds (pieces.flatMap Piece.text),
              file.getD "shell"⟩ := by
  obtain ⟨pieces, left, hsplits⟩ : ∃ pieces left,
      Splits source.toList pieces left :=
    ⟨_, _, splits_split source.toList⟩
  cases left with
  | nil =>
      have htokens := tokenize_of_splits_nil file hsplits
      constructor
      · intro tokens
        rw [htokens]
        constructor
        · rintro ⟨⟩
          exact ⟨pieces, hsplits, rfl⟩
        · rintro ⟨others, hothers, rfl⟩
          rw [(hsplits.unique hothers).1]
      · intro diagnostic
        rw [htokens]
        constructor
        · rintro ⟨⟩
        · rintro ⟨others, c, rest, hothers, -⟩
          cases (hsplits.unique hothers).2
  | cons c rest =>
      have herror := tokenize_of_splits_cons file hsplits
      constructor
      · intro tokens
        rw [herror]
        constructor
        · rintro ⟨⟩
        · rintro ⟨others, hothers, -⟩
          cases (hsplits.unique hothers).2
      · intro diagnostic
        rw [herror]
        constructor
        · rintro ⟨⟩
          exact ⟨pieces, c, rest, hsplits, rfl⟩
        · rintro ⟨others, other, behind, hothers, rfl⟩
          obtain ⟨rfl, hleft⟩ := hsplits.unique hothers
          cases hleft
          rfl

end TinyCompiler.Scanner

namespace TinyCompiler

/-! ## Names -/

/-- A name made up of ASCII letters. -/
def IsWord (name : String) : Prop :=
  name ≠ "" ∧ ∀ c ∈ name.toList, c.isAlpha = true

instance (name : String) : Decidable (IsWord name) :=
  decidable_of_iff (name ≠ "" ∧ name.toList.all Char.isAlpha = true)
    (and_congr_right fun _ => List.all_eq_true)

theorem IsWord.not_blank {name : String} (hword : IsWord name) :
    ∀ c ∈ name.toList, Text.isBlank c = false := by
  intro c hc
  have hletter := hword.2 c hc
  rw [← Bool.not_eq_true]
  exact fun hblank => (Scanner.not_letter_digit_of_blank hblank).1 hletter

theorem Scanner.Lexeme.word_of_identifier {name : String}
    (hlexeme : Lexeme (.token .identifier name.toList)) : IsWord name := by
  generalize htext : name.toList = text at hlexeme
  generalize hkind : Token.Kind.identifier = kind at hlexeme
  cases hlexeme with
  | identifier hne hletters =>
      rw [← htext] at hne hletters
      exact ⟨by simpa using hne, hletters⟩
  | reserved hword =>
      subst hkind
      simp [reservedWords] at hword
  | number => cases hkind
  | symbol hsymbol =>
      subst hkind
      simp [symbols] at hsymbol

theorem Scanner.word_of_identifier {source : String} {file : Option String}
    {tokens : List Token} (htokens : tokenize source file = .ok tokens)
    {token : Token} (htoken : token ∈ tokens)
    (hkind : token.kind = .identifier) : IsWord token.text := by
  obtain ⟨pieces, hsplits, rfl⟩ := splits_of_tokenize htokens
  rcases List.mem_append.mp htoken with hpiece | hlast
  · have hlexeme := hsplits.lexeme_of_mem [] token hpiece
    rw [hkind] at hlexeme
    exact hlexeme.word_of_identifier
  · rw [List.mem_singleton.mp hlast] at hkind
    cases hkind

end TinyCompiler
