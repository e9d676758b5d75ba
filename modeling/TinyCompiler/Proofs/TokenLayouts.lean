import Mathlib.Data.List.Chain
import TinyCompiler.Proofs.LexicalGrammar

/-!
# Layouts of tokens

The tokens of a text can be laid out anew, with any white space and comments
around them.  The gap between two tokens may be empty as long as these are not
both words and not both numbers.  The new text has the same tokens, on lines of
its own.
-/

namespace TinyCompiler.Scanner

/-! ## Layouts -/

/-- White space and closed comments in any order. -/
inductive Gap : List Char → Prop where
  | nil : Gap []
  | blank {c : Char} {rest : List Char} : Text.isBlank c = true → Gap rest →
      Gap (c :: rest)
  | comment {body rest : List Char} :
      '}' ∉ body → Gap rest → Gap ('{' :: body ++ '}' :: rest)

/-- The kinds of identifiers and reserved words. -/
def isWord (kind : Token.Kind) : Bool :=
  kind = .identifier || reservedWords.any fun entry => entry.2 = kind

/-- Tokens of such kinds are read as one where nothing stands between them. -/
def merge (first second : Token.Kind) : Bool :=
  isWord first && isWord second || first = .number && second = .number

/-- A token with the gap that is written before it. -/
structure Placed where
  gap : List Char
  token : Token

namespace Placed

def text (place : Placed) : List Char :=
  place.gap ++ place.token.text.toList

/-- Tokens that would merge have a gap between them that is not empty. -/
def Separated (first second : Placed) : Prop :=
  second.gap = [] → merge first.token.kind second.token.kind = false

/-- The placed tokens behind some text, each with the line that its first
character then stands on. -/
def tokens (before : List Char) : List Placed → List Token
  | [] => []
  | place :: places =>
      { place.token with line := 1 + Text.lineFeeds (before ++ place.gap) } ::
        tokens (before ++ place.text) places

end Placed

/-- Tokens with gaps before, between and behind them. -/
structure Layout where
  places : List Placed
  ending : List Char
  gaps : ∀ place ∈ places, Gap place.gap
  gap_ending : Gap ending
  separated : places.IsChain Placed.Separated

namespace Layout

def text (layout : Layout) : List Char :=
  layout.places.flatMap Placed.text ++ layout.ending

def tokens (layout : Layout) : List Token :=
  Placed.tokens [] layout.places

end Layout

/-! ## Tokens at the head of a text -/

/-- The characters that continue a token of some kind. -/
def continues (kind : Token.Kind) (c : Char) : Bool :=
  isWord kind && c.isAlpha || kind = .number && c.isDigit

theorem isWord_of_reserved {word : String} {kind : Token.Kind}
    (hreserved : (word, kind) ∈ reservedWords) : isWord kind = true := by
  simp only [isWord, Bool.or_eq_true, List.any_eq_true]
  exact .inr ⟨_, hreserved, decide_eq_true rfl⟩

/-- A run that the text behind it does not continue ends there. -/
theorem reads_run_exactly {p : Char → Bool} (make : List Char → Piece)
    (hnext : ∀ c rest, p c = true →
      next? c rest = some (make (c :: rest.takeWhile p), rest.dropWhile p))
    {text behind : List Char} (hne : text ≠ []) (hall : ∀ c ∈ text, p c = true)
    (hbehind : ∀ c ∈ behind.head?, p c = false) :
    Reads (text ++ behind) (make text) behind := by
  have hreads := reads_run make hnext hne hall behind
  cases behind with
  | nil => simpa using hreads
  | cons c rest => simpa [hbehind c rfl] using hreads

/-- A token that the text behind it does not continue is cut off as it is. -/
theorem Lexeme.reads_token {kind : Token.Kind} {word behind : List Char}
    (hlexeme : Lexeme (.token kind word))
    (hbehind : ∀ c ∈ behind.head?, continues kind c = false) :
    Reads (word ++ behind) (.token kind word) behind := by
  have hword : isWord kind = true → ∀ c ∈ behind.head?, c.isAlpha = false := by
    intro hkind c hc
    simpa [continues, hkind] using (Bool.or_eq_false_iff.mp (hbehind c hc)).1
  cases hlexeme with
  | @reserved word kind hreserved =>
      obtain ⟨hne, hall⟩ := reservedWords_letters _ hreserved
      have hreads := reads_run_exactly (fun word => .token (wordKind word) word)
        (fun c rest hc => next?_letter hc rest) hne hall
          (hword (isWord_of_reserved hreserved))
      rwa [wordKind_of_reserved hreserved] at hreads
  | identifier hne hall hnot =>
      have hreads := reads_run_exactly (fun word => .token (wordKind word) word)
        (fun c rest hc => next?_letter hc rest) hne hall (hword rfl)
      rwa [wordKind_of_not_reserved hnot] at hreads
  | number hne hall =>
      exact reads_run_exactly (.token .number)
        (fun c rest hc => next?_digit hc rest) hne hall
        fun c hc => (Bool.or_eq_false_iff.mp (hbehind c hc)).2
  | symbol hsymbol => exact reads_symbol hsymbol behind

/-- Only a token that merges with another one has a character that continues
it. -/
theorem Lexeme.merge_of_continues {first second : Token.Kind} {word : List Char}
    {c : Char} (hlexeme : Lexeme (.token second word)) (hc : c ∈ word)
    (hcontinues : continues first c = true) : merge first second = true := by
  simp only [continues, Bool.or_eq_true, Bool.and_eq_true,
    decide_eq_true_eq] at hcontinues
  simp only [merge, Bool.or_eq_true, Bool.and_eq_true, decide_eq_true_eq]
  have hletters : c.isAlpha = true → isWord second = true →
      isWord first = true ∧ isWord second = true := by
    intro hletter hsecond
    rcases hcontinues with ⟨hfirst, -⟩ | ⟨-, hdigit⟩
    · exact ⟨hfirst, hsecond⟩
    · exact absurd hletter (not_letter_of_digit hdigit)
  cases hlexeme with
  | reserved hreserved =>
      exact .inl (hletters ((reservedWords_letters _ hreserved).2 c hc)
        (isWord_of_reserved hreserved))
  | identifier hne hall hnot =>
      exact .inl (hletters (hall c hc) rfl)
  | number hne hall =>
      rcases hcontinues with ⟨-, hletter⟩ | ⟨hfirst, -⟩
      · exact absurd hletter (not_letter_of_digit (hall c hc))
      · exact .inr ⟨hfirst, rfl⟩
  | symbol hsymbol =>
      obtain ⟨hletter, hdigit, -⟩ := symbols_characters _ hsymbol c hc
      simp [hletter, hdigit] at hcontinues

/-- White space and comments continue no token. -/
theorem Gap.not_continues {space : List Char} (hgap : Gap space)
    (kind : Token.Kind) :
    ∀ c ∈ space.head?, continues kind c = false := by
  intro c hc
  have hneither : c.isAlpha = false ∧ c.isDigit = false := by
    cases hgap with
    | nil => cases hc
    | blank hblank =>
        cases hc
        simpa using not_letter_digit_of_blank hblank
    | comment =>
        cases hc
        decide
  simp [continues, hneither]

/-! ## Texts of tokens -/

/-- The text behind `before` is made up of pieces with these tokens. -/
def Yields (before text : List Char) (tokens : List Token) : Prop :=
  ∃ pieces, Splits text pieces [] ∧ tokensBehind before pieces = tokens

namespace Yields

variable {before text : List Char} {tokens : List Token}

theorem nil (before : List Char) : Yields before [] [] :=
  ⟨[], .stop not_starts_nil, rfl⟩

theorem token {kind : Token.Kind} {word : List Char}
    (hlexeme : Lexeme (.token kind word))
    (hbehind : ∀ c ∈ text.head?, continues kind c = false)
    (hyields : Yields (before ++ word) text tokens) :
    Yields before (word ++ text)
      (⟨kind, String.ofList word, 1 + Text.lineFeeds before⟩ :: tokens) := by
  obtain ⟨pieces, hsplits, rfl⟩ := hyields
  exact ⟨.token kind word :: pieces,
    .piece (reads_iff_starts.mp (hlexeme.reads_token hbehind)) hsplits, rfl⟩

theorem comment {body : List Char} (hbody : '}' ∉ body)
    (hyields : Yields (before ++ ('{' :: body ++ ['}'])) text tokens) :
    Yields before ('{' :: body ++ '}' :: text) tokens := by
  obtain ⟨pieces, hsplits, rfl⟩ := hyields
  have hreads : Reads ('{' :: body ++ '}' :: text)
      (.gap ('{' :: body ++ ['}'])) text :=
    ⟨'{', body ++ '}' :: text, rfl, comment?_append hbody text⟩
  exact ⟨_, .piece (reads_iff_starts.mp hreads) hsplits, rfl⟩

/-- A blank before a text lengthens the white space that the text starts
with. -/
theorem blank {c : Char} (hblank : Text.isBlank c = true)
    (hyields : Yields (before ++ [c]) text tokens) :
    Yields before (c :: text) tokens := by
  obtain ⟨pieces, hsplits, rfl⟩ := hyields
  have hnext : ∀ c rest, Text.isBlank c = true → next? c rest =
      some (.gap (c :: rest.takeWhile Text.isBlank),
        rest.dropWhile Text.isBlank) :=
    fun c rest hc => next?_blank hc rest
  by_cases hhead : ∀ d ∈ text.head?, Text.isBlank d = false
  · have hreads : Reads ([c] ++ text) (.gap [c]) text :=
      reads_run_exactly .gap hnext (List.cons_ne_nil c [])
        (by simpa using hblank) hhead
    exact ⟨.gap [c] :: pieces, .piece (reads_iff_starts.mp hreads) hsplits, rfl⟩
  · simp only [not_forall, Bool.not_eq_false] at hhead
    obtain ⟨d, hd, hblankHead⟩ := hhead
    obtain ⟨rest, rfl⟩ := List.head?_eq_some_iff.mp hd
    have hshorter : Reads (d :: rest) (.gap (d :: rest.takeWhile Text.isBlank))
        (rest.dropWhile Text.isBlank) := ⟨d, rest, rfl, hnext d rest hblankHead⟩
    have hlonger :
        Reads (c :: d :: rest) (.gap (c :: d :: rest.takeWhile Text.isBlank))
        (rest.dropWhile Text.isBlank) := by
      refine ⟨c, d :: rest, rfl, ?_⟩
      rw [hnext c _ hblank, List.takeWhile_cons_of_pos hblankHead,
        List.dropWhile_cons_of_pos hblankHead]
    cases hsplits with
    | piece hstarts hrest =>
        obtain ⟨rfl, rfl⟩ := hshorter.unique (reads_iff_starts.mpr hstarts)
        refine ⟨_, .piece (reads_iff_starts.mp hlonger) hrest, ?_⟩
        simp [tokensBehind]

theorem gap {space : List Char} (hgap : Gap space)
    (hyields : Yields (before ++ space) text tokens) :
    Yields before (space ++ text) tokens := by
  induction hgap generalizing before with
  | nil => simpa using hyields
  | blank hblank _ ih => exact blank hblank (ih (by simpa using hyields))
  | @comment body rest hbody _ ih =>
      have hrest : Yields (before ++ ('{' :: body ++ ['}']))
          (rest ++ text) tokens :=
        ih (by simpa using hyields)
      simpa using comment hbody hrest

end Yields

/-! ## Texts of layouts -/

section Places

variable {places : List Placed} {ending : List Char}

/-- What is written behind a token does not continue it. -/
theorem Placed.not_continues {place : Placed}
    (hgaps : ∀ next ∈ places, Gap next.gap)
    (hlexemes : ∀ next ∈ places,
      Lexeme (.token next.token.kind next.token.text.toList))
    (hending : Gap ending) (hseparated : (place :: places).IsChain Separated) :
    ∀ c ∈ (places.flatMap text ++ ending).head?,
      continues place.token.kind c = false := by
  intro c hc
  cases places with
  | nil => exact hending.not_continues _ c hc
  | cons next rest =>
      have hfirst := (List.isChain_cons_cons.mp hseparated).1
      have hgap := hgaps next List.mem_cons_self
      have hlexeme := hlexemes next List.mem_cons_self
      cases hempty : next.gap with
      | nil =>
          obtain ⟨d, word, hword⟩ : ∃ d word,
              next.token.text.toList = d :: word :=
            List.exists_cons_of_ne_nil hlexeme.text_ne_nil
          rw [List.flatMap_cons, text, hempty, hword] at hc
          cases hc
          rw [← Bool.not_eq_true]
          intro hcontinues
          have hmerge :=
            hlexeme.merge_of_continues (hword ▸ List.mem_cons_self) hcontinues
          rw [hfirst hempty] at hmerge
          cases hmerge
      | cons d space =>
          rw [List.flatMap_cons, text, hempty] at hc
          exact hgap.not_continues _ c (by rw [hempty]; exact hc)

theorem Yields.of_places (hgaps : ∀ place ∈ places, Gap place.gap)
    (hlexemes : ∀ place ∈ places,
      Lexeme (.token place.token.kind place.token.text.toList))
    (hending : Gap ending) (hseparated : places.IsChain Placed.Separated)
    (before : List Char) :
    Yields before (places.flatMap Placed.text ++ ending)
      (Placed.tokens before places) := by
  induction places generalizing before with
  | nil => simpa [Placed.tokens] using Yields.gap hending (Yields.nil _)
  | cons place rest ih =>
      obtain ⟨hgap, hrestGaps⟩ := List.forall_mem_cons.mp hgaps
      obtain ⟨hlexeme, hrestLexemes⟩ := List.forall_mem_cons.mp hlexemes
      have hbehind :=
        Placed.not_continues hrestGaps hrestLexemes hending hseparated
      have hrest :=
        ih hrestGaps hrestLexemes hseparated.tail (before ++ place.text)
      rw [Placed.text, ← List.append_assoc] at hrest
      -- The gap and the token are cut off in front of what is written behind
      -- them.
      have hplace := Yields.gap hgap (Yields.token hlexeme hbehind hrest)
      rw [String.ofList_toList] at hplace
      simpa [Placed.text, Placed.tokens] using hplace

end Places

/-- The tokens of a text, laid out anew, are read again, each on the line that
is counted by the line feeds before it. -/
theorem laid_out_tokens_read_again (source : String) (file : Option String)
    (tokens : List Token)
    (htokens : tokenize source file = .ok tokens) (layout : Layout)
    (hplaced : layout.places.map Placed.token =
      tokens.filter fun token => token.kind ≠ .endOfInput)
        (other : Option String) :
    tokenize (String.ofList layout.text) other =
      .ok (layout.tokens ++
        [Token.endOfInput (1 + Text.lineFeeds layout.text)]) := by
  obtain ⟨pieces, hsplits, rfl⟩ := splits_of_tokenize htokens
  have hlexemes : ∀ place ∈ layout.places,
      Lexeme (.token place.token.kind place.token.text.toList) := by
    intro place hplace
    have hmem : place.token ∈ layout.places.map Placed.token :=
      List.mem_map_of_mem hplace
    rw [hplaced, List.mem_filter, List.mem_append, List.mem_singleton] at hmem
    rcases hmem with ⟨htoken | hend, hkind⟩
    · exact hsplits.lexeme_of_mem [] _ htoken
    · simp [hend, Token.endOfInput] at hkind
  obtain ⟨laid, hlaid, hlaidTokens⟩ :=
    Yields.of_places layout.gaps hlexemes layout.gap_ending layout.separated []
  have hsource : Splits (String.ofList layout.text).toList laid [] := by
    rw [String.toList_ofList]
    exact hlaid
  rw [tokenize_of_splits_nil other hsource, hlaidTokens, String.toList_ofList]
  rfl

/-- The assignment of 1 to a, with a comment before it and its parts on two
lines. -/
def wrappedAssignment : Layout where
  places := [⟨['{', '\n', '}'], ⟨.identifier, "a", 1⟩⟩,
    ⟨[], ⟨.assignment, ":=", 1⟩⟩, ⟨['\r', '\n', ' '], ⟨.number, "1", 1⟩⟩]
  ending := ['\n']
  gaps := List.forall_mem_cons.mpr ⟨@Gap.comment ['\n'] [] (by decide) .nil,
    List.forall_mem_cons.mpr ⟨.nil, List.forall_mem_singleton.mpr
      (.blank (by decide) (.blank (by decide) (.blank (by decide) .nil)))⟩⟩
  gap_ending := .blank (by decide) .nil
  separated := List.isChain_cons_cons.mpr ⟨fun _ => by decide,
    List.isChain_cons_cons.mpr ⟨fun _ => by decide, List.isChain_singleton _⟩⟩

def assignmentTokens : List Token :=
  [⟨.identifier, "a", 1⟩, ⟨.assignment, ":=", 1⟩, ⟨.number, "1", 1⟩,
    Token.endOfInput 1]

theorem wrappedAssignment_read_again :
    tokenize "a:=1" none = .ok assignmentTokens ∧
      wrappedAssignment.text =
        ['{', '\n', '}', 'a', ':', '=', '\r', '\n', ' ', '1', '\n'] ∧
      tokenize (String.ofList wrappedAssignment.text) none =
        .ok [⟨.identifier, "a", 2⟩, ⟨.assignment, ":=", 2⟩, ⟨.number, "1", 3⟩,
          Token.endOfInput 4] := by
  have htokens : tokenize "a:=1" none = .ok assignmentTokens := by
    with_unfolding_all rfl
  exact ⟨htokens, by decide,
    laid_out_tokens_read_again _ _ _ htokens wrappedAssignment rfl none⟩

end TinyCompiler.Scanner
