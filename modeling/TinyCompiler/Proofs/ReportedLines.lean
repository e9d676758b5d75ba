import TinyCompiler.Proofs.CompiledPrograms
import TinyCompiler.Proofs.ConstructTokens
import TinyCompiler.Proofs.FirstOffendingToken
import TinyCompiler.Proofs.Occurrences
import TinyCompiler.Proofs.RenderedColumns

/-!
# Reported lines

A line number counts the line feeds before a place.  The line that it selects,
however the lines of the text end, has the text at that place, and keeps it when
the white space around the line is dropped.  The numbers of tokens, and with
them those of all errors, are of this kind, so that an error is shown with the
line of the text that it is about.
-/

namespace TinyCompiler

/-! ## Lines of a text -/

namespace Text

theorem not_feed_return_of_not_blank {c : Char} (hblank : isBlank c = false) :
    c ≠ '\n' ∧ c ≠ '\r' := by
  constructor <;> rintro rfl <;> revert hblank <;> decide

theorem lines_word {word : List Char} (hne : word ≠ [])
    (hword : ∀ c ∈ word, isBlank c = false) (after : List Char) :
    lines (word ++ after) = (word ++ (lines after).headD []) ::
      (lines after).tail := by
  induction word with
  | nil => exact absurd rfl hne
  | cons c word ih =>
      obtain ⟨hc, hrest⟩ := List.forall_mem_cons.mp hword
      obtain ⟨hfeed, hreturn⟩ := not_feed_return_of_not_blank hc
      rw [List.cons_append, lines_cons hfeed fun heq => absurd heq hreturn]
      by_cases hnil : word = []
      · rw [hnil]
        rfl
      · rw [ih hnil hrest]
        rfl

/-- In front of a character that is no line feed, each line stays where it is
and keeps its text. -/
theorem getElem?_lines_cons {c : Char} {rest row : List Char} {index : Nat}
    (hfeed : c ≠ '\n') (hrow : (lines rest)[index]? = some row) :
    ∃ longer, (lines (c :: rest))[index]? = some longer ∧ row <:+ longer := by
  by_cases hends : c = '\r' ∧ rest.head? = some '\n'
  -- A carriage return before a line feed belongs to the line end.
  · obtain ⟨rfl, hhead⟩ := hends
    obtain ⟨behind, rfl⟩ := List.head?_eq_some_iff.mp hhead
    exact ⟨row, hrow, List.suffix_rfl⟩
  · rw [lines_cons hfeed fun hreturn hhead => hends ⟨hreturn, hhead⟩]
    cases hlines : lines rest with
    | nil => simp [hlines] at hrow
    | cons first others =>
        rw [hlines] at hrow
        cases index with
        | zero =>
            obtain rfl : first = row := Option.some.inj hrow
            exact ⟨c :: first, rfl, List.suffix_cons c first⟩
        | succ index => exact ⟨row, hrow, List.suffix_rfl⟩

/-- The line feeds before a word count the lines before the one that has the
word. -/
theorem getElem?_lines {word : List Char} (hne : word ≠ [])
    (hword : ∀ c ∈ word, isBlank c = false) (before after : List Char) :
    ∃ row, (lines (before ++ (word ++ after)))[lineFeeds before]? = some row ∧
      word <:+: row := by
  induction before with
  | nil =>
      refine ⟨word ++ (lines after).headD [], ?_,
        (List.prefix_append word _).isInfix⟩
      rw [List.nil_append, lines_word hne hword]
      rfl
  | cons c before ih =>
      obtain ⟨row, hrow, hwithin⟩ := ih
      by_cases hfeed : c = '\n'
      · subst hfeed
        refine ⟨row, ?_, hwithin⟩
        rw [lineFeeds, List.count_cons_self, List.cons_append, lines]
        exact hrow
      · obtain ⟨longer, hlonger, hsuffix⟩ := getElem?_lines_cons hfeed hrow
        refine ⟨longer, ?_, hwithin.trans hsuffix.isInfix⟩
        rw [lineFeeds, List.count_cons_of_ne hfeed]
        exact hlonger

theorem infix_dropWhile {p : Char → Bool} {word row : List Char}
    (hword : ∀ c ∈ word, p c = false) (hwithin : word <:+: row) :
    word <:+: row.dropWhile p := by
  induction row with
  | nil => exact hwithin
  | cons c row ih =>
      by_cases hc : p c = true
      · rw [List.dropWhile_cons_of_pos hc]
        rcases List.infix_cons_iff.mp hwithin with hstart | hrest
        · cases word with
          | nil => exact List.nil_infix
          | cons d word =>
              have hd : d = c := (List.cons_prefix_cons.mp hstart).1
              rw [← hd, hword d List.mem_cons_self] at hc
              cases hc
        · exact ih hrest
      · rwa [List.dropWhile_cons_of_neg hc]

theorem infix_trimEnd {word row : List Char}
    (hword : ∀ c ∈ word, isBlank c = false) (hwithin : word <:+: row) :
    word <:+: trimEnd row := by
  rw [← List.reverse_infix, trimEnd, List.reverse_reverse]
  exact infix_dropWhile (fun c hc => hword c (List.mem_reverse.mp hc))
    (List.reverse_infix.mpr hwithin)

end Text

/-! ## Lines that are shown -/

namespace Diagnostic

/-- There is a line with such a number, and diagnostics show it with a text in
it. -/
structure Shown (source : String) (line : Nat) (text : List Char) : Prop where
  pos : 1 ≤ line
  le_length : line ≤ (Text.lines source.toList).length
  contains : text <:+: sourceLine line source

/-- The number that counts the line feeds before a text shows the text. -/
theorem shown_of_append {source : String} {before text after : List Char}
    (hsource : source.toList = before ++ (text ++ after)) (hne : text ≠ [])
    (htext : ∀ c ∈ text, Text.isBlank c = false) :
    Shown source (1 + Text.lineFeeds before) text := by
  obtain ⟨row, hrow, hwithin⟩ := Text.getElem?_lines hne htext before after
  rw [← hsource] at hrow
  have hindent : ∀ c ∈ text,
      (decide (c = ' ') || decide (c = '\t')) = false := by
    intro c hc
    have hblank := htext c hc
    have hneither : c ≠ ' ' ∧ c ≠ '\t' := by
      constructor <;> rintro rfl <;> revert hblank <;> decide
    simp [hneither]
  refine ⟨Nat.le_add_right 1 _, ?_, ?_⟩
  · have hindex := (List.getElem?_eq_some_iff.mp hrow).1
    omega
  · unfold sourceLine
    rw [Nat.add_sub_cancel_left, hrow]
    exact Text.infix_trimEnd htext (Text.infix_dropWhile hindent hwithin)

/-- The rendering of a diagnostic shows a text in the line with its number. -/
def Displays (diagnostic : Diagnostic) (source : String) (text : List Char) :
    Prop :=
  Shown source diagnostic.line text ∧
    ∃ picture, picture? (diagnostic.render source) = some picture ∧
      picture.line = ' ' :: (toString diagnostic.line).toList ++
        ' ' :: '|' :: ' ' :: sourceLine diagnostic.line source

theorem Shown.displays {diagnostic : Diagnostic} {source : String}
    {text : List Char} (hshown : Shown source diagnostic.line text)
    (hne : text ≠ []) :
    diagnostic.Displays source text := by
  refine ⟨hshown, _, picture?_render diagnostic fun hnil => hne ?_, rfl⟩
  have hwithin := hshown.contains
  rw [hnil] at hwithin
  exact List.infix_nil.mp hwithin

end Diagnostic

/-! ## Places of tokens -/

namespace Scanner

theorem Splits.token_place {text left : List Char} {pieces : List Piece}
    (hsplits : Splits text pieces left) (before : List Char) :
    ∀ token ∈ tokensBehind before pieces, ∃ front back,
      before ++ text = front ++ (token.text.toList ++ back) ∧
        token.line = 1 + Text.lineFeeds front := by
  induction hsplits generalizing before with
  | stop => simp [tokensBehind]
  | @piece text after left piece pieces hstarts _ ih =>
      have hbehind := ih (before ++ piece.text)
      rw [List.append_assoc, ← hstarts.split] at hbehind
      cases piece with
      | token kind word =>
          refine List.forall_mem_cons.mpr ⟨⟨before, after, ?_, rfl⟩, hbehind⟩
          rw [String.toList_ofList, hstarts.split]
          rfl
      | gap word => exact hbehind

variable {source : String} {file : Option String} {tokens : List Token}
  {token : Token}

theorem mem_tokensBehind (htokens : tokenize source file = .ok tokens)
    (htoken : token ∈ tokens) (hkind : token.kind ≠ .endOfInput) :
    ∃ pieces, Splits source.toList pieces [] ∧
      token ∈ tokensBehind [] pieces := by
  obtain ⟨pieces, hsplits, rfl⟩ := splits_of_tokenize htokens
  refine ⟨pieces, hsplits, ?_⟩
  rcases List.mem_append.mp htoken with hmem | hend
  · exact hmem
  · exact absurd (congrArg Token.kind (List.mem_singleton.mp hend)) hkind

theorem token_text_ne_nil (htokens : tokenize source file = .ok tokens)
    (htoken : token ∈ tokens) (hkind : token.kind ≠ .endOfInput) :
    token.text.toList ≠ [] := by
  obtain ⟨pieces, hsplits, hmem⟩ := mem_tokensBehind htokens htoken hkind
  exact (hsplits.lexeme_of_mem [] token hmem).text_ne_nil

/-- The line of a token shows its text. -/
theorem token_shown (htokens : tokenize source file = .ok tokens)
    (htoken : token ∈ tokens) (hkind : token.kind ≠ .endOfInput) :
    Diagnostic.Shown source token.line token.text.toList := by
  obtain ⟨pieces, hsplits, hmem⟩ := mem_tokensBehind htokens htoken hkind
  obtain ⟨front, back, hsource, hline⟩ := hsplits.token_place [] token hmem
  have hlexeme := hsplits.lexeme_of_mem [] token hmem
  rw [hline]
  exact Diagnostic.shown_of_append hsource hlexeme.text_ne_nil fun c hc =>
    hlexeme.not_blank hc

theorem Splits.append_eq {text left : List Char} {pieces : List Piece}
    (hsplits : Splits text pieces left) :
    pieces.flatMap Piece.text ++ left = text := by
  have hwhole := split_append text
  rwa [split_eq_iff.mpr hsplits] at hwhole

theorem Splits.stopped {text left : List Char} {pieces : List Piece}
    (hsplits : Splits text pieces left) (piece : Piece) (after : List Char) :
    ¬ Starts left piece after := by
  induction hsplits with
  | stop hnone => exact hnone piece after
  | piece _ _ ih => exact ih

/-- An error of the scanner is about the first character that starts no piece,
and is shown with its line. -/
theorem problem_displayed {diagnostic : Diagnostic}
    (herror : tokenize source file = .error diagnostic) :
    ∃ pieces c rest, Splits source.toList pieces (c :: rest) ∧
      diagnostic.problem = problemAt c ∧ diagnostic.Displays source [c] := by
  obtain ⟨pieces, left, hsplits⟩ : ∃ pieces left,
      Splits source.toList pieces left :=
    ⟨_, _, splits_split source.toList⟩
  cases left with
  | nil =>
      rw [tokenize_of_splits_nil file hsplits] at herror
      cases herror
  | cons c rest =>
      rw [tokenize_of_splits_cons file hsplits] at herror
      cases herror
      have hblank : ∀ d ∈ [c], Text.isBlank d = false := by
        intro d hd
        rw [List.mem_singleton.mp hd, ← Bool.not_eq_true]
        intro hblank
        exact hsplits.stopped
          _ _ (reads_iff_starts.mp ⟨c, rest, rfl, next?_blank hblank rest⟩)
      have hne : [c] ≠ [] := List.cons_ne_nil c []
      have hshown :=
        Diagnostic.shown_of_append hsplits.append_eq.symm hne hblank
      exact ⟨pieces, c, rest, hsplits, rfl, hshown.displays hne⟩

end Scanner

/-! ## Errors of a compilation -/

/-- What is reported of a construct that breaks a typing rule and starts with
some token. -/
def TypeError.report (file : String) (breach : TypeError × Token) :
    Diagnostic where
  problem := .typing breach.1
  line := breach.2.line
  file := file

section Errors

variable {source file : String} {tokens : List Token}

/-- A text that is not parsed is blamed on the first token that continues no
program, and is shown with the line of that token. -/
theorem Parser.rejection_displayed {diagnostic : Diagnostic}
    {other : Option String}
    (htokens : Scanner.tokenize source other = .ok tokens)
    (hparse : parse tokens file = .error (.rejected diagnostic)) :
    ∃ front token rest,
      tokens = front ++ token :: rest ∧ diagnostic.Blames token ∧
      Viable file front ∧ ¬ Viable file (front ++ [token]) ∧
      (token.kind ≠ .endOfInput →
        diagnostic.Displays source token.text.toList) := by
  obtain ⟨blamed, front, token, rest, hstop, hterminated, hblames,
      hviable, hnot⟩ :=
    rejected_at_offender hparse
  obtain rfl := Stop.rejected.inj hstop
  obtain ⟨line, hprogram⟩ := Scanner.programTokens_of_tokenize htokens
  have hsplit : tokens = front ++ token :: rest := by
    rw [← hterminated, hprogram, terminatedTokens_concat _ rfl]
  refine ⟨front, token, rest, hsplit, hblames, hviable, hnot, fun hkind => ?_⟩
  have htoken : token ∈ tokens := by simp [hsplit]
  have hshown := Scanner.token_shown htokens htoken hkind
  rw [← hblames.1] at hshown
  exact hshown.displays (Scanner.token_text_ne_nil htokens htoken hkind)

/-- The type errors of a text are those of its derivation, each shown with the
line of the token that starts the construct. -/
theorem analysis_displayed {tree : Tree} {analysis : Analysis}
    {other : Option String}
    (htokens : Scanner.tokenize source other = .ok tokens)
    (hparse : Parser.parse tokens file = .ok tree)
    (hanalyze : analyze tree file = .ok analysis) :
    ∃ (sequence : Grammar.Sequence) (line : Nat),
      tokens = sequence.tokens ++ [Token.endOfInput line] ∧
      analysis.diagnostics =
        sequence.marked.breaches.map (TypeError.report file) ∧
      ∀ breach ∈ sequence.marked.breaches, breach.2 ∈ sequence.tokens ∧
        (TypeError.report file breach).Displays source
          breach.2.text.toList := by
  obtain ⟨line, hprogramTokens⟩ := Scanner.programTokens_of_tokenize htokens
  obtain ⟨sequence, hsequence, -, rfl⟩ := Parser.derivation_of_parse hparse
  obtain ⟨program, hprogram, hlines⟩ := sequence.program_tree
  rw [analyze_eq hprogram file] at hanalyze
  obtain rfl := Except.ok.inj hanalyze
  refine ⟨sequence, line,
    by rw [hsequence, ← hprogramTokens], ?_, fun breach hbreach => ?_⟩
  · have hmistakes : Finding.mistakes program.findings =
        sequence.marked.breaches.map (Prod.map id Token.line) := by
      rw [program.mistakes_findings, hlines, ← sequence.mapNote_marked,
        Block.breaches_mapNote]
    rw [Analysis.diagnostics]
    change (Finding.mistakes program.findings).map _ = _
    rw [hmistakes, List.map_map]
    rfl
  · have hmem := sequence.breach_mem hbreach
    have hprogramToken : breach.2 ∈ Parser.programTokens tokens :=
      hsequence ▸ hmem
    have htoken : breach.2 ∈ tokens := List.takeWhile_subset _ hprogramToken
    have hkind : breach.2.kind ≠ .endOfInput := by
      simpa using List.mem_takeWhile_imp hprogramToken
    have hshown : Diagnostic.Shown source (TypeError.report file breach).line
      breach.2.text.toList := Scanner.token_shown htokens htoken hkind
    exact ⟨hmem,
      hshown.displays (Scanner.token_text_ne_nil htokens htoken hkind)⟩

end Errors

/-- The line of a token has the text of the token.  Every error of a compilation
that is not one at the end of input is shown with the line that has what it is
about: the character that starts no piece, be it the brace of a comment, the
first token that continues no program, or the token that starts an ill-typed
construct. -/
theorem errors_show_their_lines (source : String) (file : Option String) :
    (∀ tokens token,
      Scanner.tokenize source file = .ok tokens → token ∈ tokens →
      token.kind ≠ .endOfInput →
        Diagnostic.Shown source token.line token.text.toList) ∧
    (∀ diagnostic, compile source file = .error (.rejected diagnostic) →
      (∃ pieces c rest, Scanner.Splits source.toList pieces (c :: rest) ∧
        diagnostic.problem = Scanner.problemAt c ∧
          diagnostic.Displays source [c]) ∨
      ∃ front token rest,
        Scanner.tokenize source (some (file.getD inputFile)) =
          .ok (front ++ token :: rest) ∧
        diagnostic.Blames token ∧ Parser.Viable (file.getD inputFile) front ∧
        ¬ Parser.Viable (file.getD inputFile) (front ++ [token]) ∧
        (token.kind ≠ .endOfInput →
          diagnostic.Displays source token.text.toList)) ∧
    ∀ diagnostics, compile source file = .error (.illTyped diagnostics) →
      ∃ (sequence : Grammar.Sequence) (line : Nat),
        Scanner.tokenize source (some (file.getD inputFile)) =
          .ok (sequence.tokens ++ [Token.endOfInput line]) ∧
        diagnostics = sequence.marked.breaches.map
          (TypeError.report (file.getD inputFile)) ∧
        ∀ breach ∈ sequence.marked.breaches, breach.2 ∈ sequence.tokens ∧
          (TypeError.report (file.getD inputFile) breach).Displays source
            breach.2.text.toList := by
  refine ⟨fun tokens token htokens => Scanner.token_shown htokens,
    ?rejected, ?illTyped⟩
  case rejected =>
    intro diagnostic hcompile
    rcases compile_eq_error hcompile with ⟨found, hfound, hscan⟩ |
      ⟨tokens, htokens,
        ⟨found, hfound, hparse⟩ | ⟨tree, analysis, -, -, hfound⟩⟩
    · obtain rfl := CompileError.rejected.inj hfound
      exact .inl (Scanner.problem_displayed hscan)
    · obtain rfl := CompileError.rejected.inj hfound
      obtain ⟨front, token, rest, rfl, hdisplayed⟩ :=
        Parser.rejection_displayed htokens hparse
      exact .inr ⟨front, token, rest, htokens, hdisplayed⟩
    · cases hfound
  case illTyped =>
    intro diagnostics hcompile
    rcases compile_eq_error hcompile with ⟨found, hfound, -⟩ |
      ⟨tokens, htokens,
        ⟨found, hfound, -⟩ | ⟨tree, analysis, hparse, hanalyze, hfound⟩⟩
    · cases hfound
    · cases hfound
    · obtain rfl := CompileError.illTyped.inj hfound
      obtain ⟨sequence, line, rfl, hdisplayed⟩ :=
        analysis_displayed htokens hparse hanalyze
      exact ⟨sequence, line, htokens, hdisplayed⟩

/-- A comparison is written, and the keyword stands alone on the second line. -/
def writtenComparison : String := "\r\n\twrite \r\n1 < 2"

def strayCharacter : String := "\r\n\r\n\t ? x"

def writtenComparisonTokens : List Token :=
  [⟨.writeWord, "write", 2⟩, ⟨.number, "1", 3⟩, ⟨.less, "<", 3⟩,
    ⟨.number, "2", 3⟩, Token.endOfInput 3]

def comparisonWritten : Diagnostic :=
  ⟨.typing .writtenValue, 2, "<input>"⟩

def characterStrayed : Diagnostic :=
  ⟨.unrecognisedToken "?", 3, "<input>"⟩

theorem sample_errors_displayed :
    Diagnostic.Shown writtenComparison 3 ['<'] ∧
    (compile writtenComparison none = .error (.illTyped [comparisonWritten]) ∧
      comparisonWritten.Displays writtenComparison "write".toList) ∧
    compile strayCharacter none = .error (.rejected characterStrayed) ∧
      characterStrayed.Displays strayCharacter ['?'] := by
  refine ⟨?token, ?illTyped, ?rejected⟩
  case token =>
    have htokens : Scanner.tokenize writtenComparison none =
        .ok writtenComparisonTokens := by with_unfolding_all rfl
    exact (errors_show_their_lines writtenComparison none).1
      _ ⟨.less, "<", 3⟩ htokens
      (by decide) (by decide)
  case illTyped =>
    have htokens : Scanner.tokenize writtenComparison (some inputFile) =
        .ok writtenComparisonTokens := by with_unfolding_all rfl
    have hfailed : (compile writtenComparison none).map Compilation.program =
        .error (.illTyped [comparisonWritten]) := by
      rw [compile, Option.getD_none, htokens]
      decide +kernel
    have hcompile := except_map_eq_error.mp hfailed
    obtain ⟨sequence, line, hscan, hdiagnostics, hdisplayed⟩ :=
      (errors_show_their_lines writtenComparison none).2.2 _ hcompile
    obtain ⟨breach, hbreach, hreport⟩ :=
      List.mem_map.mp (hdiagnostics ▸ List.mem_singleton_self _)
    obtain ⟨hmem, hdisplays⟩ := hdisplayed breach hbreach
    have hsame := Except.ok.inj (htokens.symm.trans hscan)
    have hkeyword : ∀ token ∈ writtenComparisonTokens,
        token.line = 2 → token.text = "write" := by decide
    have htext := hkeyword breach.2 (hsame ▸ List.mem_append_left _ hmem)
      (congrArg Diagnostic.line hreport)
    rw [hreport, htext] at hdisplays
    exact ⟨hcompile, hdisplays⟩
  case rejected =>
    have hscan : Scanner.tokenize strayCharacter (some inputFile) =
        .error characterStrayed := by with_unfolding_all rfl
    have hcompile : compile strayCharacter none =
        .error (.rejected characterStrayed) := by
      rw [compile, Option.getD_none, hscan]
      rfl
    refine ⟨hcompile, ?_⟩
    rcases (errors_show_their_lines strayCharacter none).2.1 _ hcompile with
      ⟨pieces, c, rest, -, hproblem, hdisplays⟩ | ⟨front, token,
        rest, htokens, -⟩
    · unfold Scanner.problemAt at hproblem
      split at hproblem
      · cases hproblem
      · have hchars : (String.singleton '?').toList =
            (String.singleton c).toList :=
          congrArg String.toList (Problem.unrecognisedToken.inj hproblem)
        rw [String.toList_singleton, String.toList_singleton] at hchars
        rwa [hchars]
    · rw [Option.getD_none, hscan] at htokens
      cases htokens

end TinyCompiler
