import Mathlib.Data.List.DropRight
import TinyCompiler.Diagnostic

/-!
# Columns of a rendered diagnostic

A rendering ends with a picture of the source line: a gutter, the line and its
carets, each behind a bar.  The gutter and the carets are set in one width and
agree with each other.  The line is put together without that width, and stands
one column to the right of them, whatever its number.
-/

namespace TinyCompiler

/-! ## Source lines -/

namespace Text

theorem lineFeed_not_mem_of_mem_lines {text row : List Char}
    (hrow : row ∈ lines text) :
    '\n' ∉ row := by
  fun_induction lines text generalizing row with
  | case1 => cases hrow
  | case2 rest ih | case3 rest ih =>
      rcases List.mem_cons.mp hrow with rfl | hrest
      · exact List.not_mem_nil
      · exact ih hrest
  | case4 c rest hfeed _ hnone ih =>
      rw [List.mem_singleton.mp hrow]
      simpa using fun hc : '\n' = c => hfeed hc.symm
  | case5 c rest hfeed _ first others hlines ih =>
      rw [hlines] at ih
      rcases List.mem_cons.mp hrow with rfl | hothers
      · have hfirst := ih List.mem_cons_self
        simpa [hfirst] using fun hc : '\n' = c => hfeed hc.symm
      · exact ih (List.mem_cons_of_mem first hothers)

/-- A character that ends no line is put before the first line behind it. -/
theorem lines_cons {c : Char} {rest : List Char} (hfeed : c ≠ '\n')
    (hreturn : c = '\r' → rest.head? ≠ some '\n') :
    lines (c :: rest) = (c :: (lines rest).headD []) :: (lines rest).tail := by
  rw [lines]
  · cases lines rest with
    | nil => rfl
    | cons first others => rfl
  · exact hfeed
  · rintro behind rfl rfl
    exact hreturn rfl rfl

theorem lines_row {row : List Char} (hfeed : '\n' ∉ row) (hreturn : '\r' ∉ row)
    (rest : List Char) : lines (row ++ '\n' :: rest) = row :: lines rest := by
  induction row with
  | nil => rfl
  | cons c row ih =>
      rw [List.mem_cons, not_or] at hfeed hreturn
      rw [List.cons_append,
        lines_cons (Ne.symm hfeed.1) fun hc => absurd hc.symm hreturn.1,
        ih hfeed.2 hreturn.2]
      rfl

theorem lines_rows {rows : List (List Char)}
    (hrows : ∀ row ∈ rows, '\n' ∉ row ∧ '\r' ∉ row) :
    lines (rows.flatMap fun row => row ++ ['\n']) = rows := by
  induction rows with
  | nil => rfl
  | cons row rows ih =>
      obtain ⟨⟨hfeed, hreturn⟩, hothers⟩ := List.forall_mem_cons.mp hrows
      rw [List.flatMap_cons, List.append_assoc, List.singleton_append,
        lines_row hfeed hreturn, ih hothers]

theorem trimEnd_eq_nil_iff {text : List Char} :
    trimEnd text = [] ↔ ∀ c ∈ text, isBlank c = true :=
  List.rdropWhile_eq_nil_iff

theorem trimEnd_subset (text : List Char) : trimEnd text ⊆ text :=
  (List.rdropWhile_prefix isBlank text).subset

end Text

namespace Diagnostic

/-- The source line that a number selects, as it stands. -/
def selected (line : Nat) (source : String) : List Char :=
  (Text.lines source.toList)[line - 1]?.getD []

theorem lineFeed_not_mem_selected (line : Nat) (source : String) :
    '\n' ∉ selected line source := by
  unfold selected
  cases hrow : (Text.lines source.toList)[line - 1]? with
  | none => exact List.not_mem_nil
  | some row =>
      exact Text.lineFeed_not_mem_of_mem_lines (List.mem_of_getElem? hrow)

theorem sourceLine_subset (line : Nat) (source : String) :
    sourceLine line source ⊆ selected line source := by
  unfold sourceLine
  exact List.Subset.trans (Text.trimEnd_subset _)
    (List.dropWhile_sublist _).subset

/-- Something is shown of every line that is not blank. -/
theorem sourceLine_eq_nil_iff {line : Nat} {source : String} :
    sourceLine line source = [] ↔ ∀ c ∈ selected line source,
      Text.isBlank c = true := by
  unfold sourceLine
  rw [Text.trimEnd_eq_nil_iff]
  refine ⟨fun hrest c hc => ?_,
    fun hall c hc => hall c ((List.dropWhile_sublist _).subset hc)⟩
  let isIndent : Char → Bool := fun c => c = ' ' || c = '\t'
  rw [← @List.takeWhile_append_dropWhile _ isIndent (selected line source),
    List.mem_append] at hc
  rcases hc with hindent | hbehind
  · have hblank := List.mem_takeWhile_imp hindent
    simp only [isIndent, Bool.or_eq_true, decide_eq_true_eq] at hblank
    rcases hblank with rfl | rfl
    · decide
    · decide
  · exact hrest c hbehind

/-! ## Pictures -/

/-- The rows in which a rendering shows a source line. -/
structure Picture where
  gutter : List Char
  line : List Char
  carets : List Char
  deriving DecidableEq

/-- The last three rows of a rendering. -/
def picture? (rendering : String) : Option Picture :=
  match (rendering.toList.splitOn '\n').reverse with
  | [] :: carets :: line :: gutter :: _ => some ⟨gutter, line, carets⟩
  | _ => none

/-- A picture of a text.  The bars of the gutter and the carets stand in one
column, and the carets in as many columns as the text has characters.  The bar
of the line and its text stand so many columns farther to the right. -/
structure Picture.Shows (picture : Picture) (text : List Char)
    (shift : Nat) : Prop where
  text_suffix : text <:+ picture.line
  bars : ∃ bar, picture.gutter.idxOf? '|' = some bar ∧
    picture.carets.idxOf? '|' = some bar ∧
    picture.line.idxOf? '|' = some (bar + shift)
  carets : ∀ column, picture.carets[column]? = some '^' ↔
    picture.line.length - text.length ≤ column + shift ∧
      column + shift < picture.line.length

/-- The bars of a picture stand in one column, and a caret below each character
of the text and nowhere else. -/
def Picture.Aligned (picture : Picture) (text : List Char) : Prop :=
  picture.Shows text 0

section Rows

variable {gutter line carets : List Char}

theorem splitOn_append_lineFeed (before rest : List Char) :
    (before ++ '\n' :: rest).splitOn '\n' =
      before.splitOn '\n' ++ rest.splitOn '\n' :=
  List.splitOnP_append_cons before rest (beq_self_eq_true '\n')

theorem splitOn_row {row : List Char} (hrow : '\n' ∉ row) :
    row.splitOn '\n' = [row] := by
  refine List.splitOnP_eq_singleton fun c hc => beq_false_of_ne ?_
  rintro rfl
  exact hrow hc

/-- The picture is read off a rendering in rows. -/
theorem picture?_eq_some {rendering : String} {head : List Char}
    (hrendering : rendering.toList =
      head ++ '\n' :: (gutter ++ '\n' :: (line ++ '\n' :: (carets ++ ['\n']))))
    (hgutter : '\n' ∉ gutter) (hline : '\n' ∉ line) (hcarets : '\n' ∉ carets) :
    picture? rendering = some ⟨gutter, line, carets⟩ := by
  have hrows : rendering.toList.splitOn '\n' =
      head.splitOn '\n' ++ [gutter, line, carets, []] := by
    simp only [hrendering, splitOn_append_lineFeed, splitOn_row hgutter,
      splitOn_row hline, splitOn_row hcarets]
    rfl
  simp [picture?, hrows]

theorem idxOf?_bar {before : List Char} (hbefore : '|' ∉ before)
    (after : List Char) :
    (before ++ '|' :: after).idxOf? '|' = some before.length := by
  induction before with
  | nil => rfl
  | cons c before ih =>
      rw [List.mem_cons, not_or] at hbefore
      have hc : (c == '|') = false := beq_false_of_ne (Ne.symm hbefore.1)
      simp [List.idxOf?_cons, hc, ih hbefore.2]

theorem getElem?_caret {before : List Char} (hbefore : '^' ∉ before)
    (count column : Nat) :
    (before ++ List.replicate count '^')[column]? = some '^' ↔
      before.length ≤ column ∧ column < before.length + count := by
  by_cases hcolumn : column < before.length
  · rw [List.getElem?_append_left hcolumn]
    refine iff_of_false (fun hcaret => hbefore (List.mem_of_getElem? hcaret)) ?_
    omega
  · rw [List.getElem?_append_right (Nat.le_of_not_lt hcolumn),
      List.getElem?_replicate]
    simp only [ite_eq_left_iff, reduceCtorEq, imp_false, Decidable.not_not]
    omega

end Rows

/-! ## The picture of a rendering -/

/-- The picture of a text with such a number, its gutter and carets set behind a
bar in a column of such a width. -/
def Picture.drawn (width : Nat) (digits text : List Char) : Picture where
  gutter := List.replicate (width - 1) ' ' ++ ['|']
  line := ' ' :: digits ++ ' ' :: '|' :: ' ' :: text
  carets := List.replicate (width - 1) ' ' ++ '|' :: ' ' ::
    List.replicate text.length '^'

/-- The number, a space on each side and the bar take three columns more than
the number has digits, and the gutter needs them all. -/
theorem Picture.drawn_shows_iff {width shift : Nat} {digits : List Char}
    (hwidth : 0 < width) (hdigits : '|' ∉ digits) (text : List Char) :
    (drawn width digits text).Shows text shift ↔
      width + shift = digits.length + 3 := by
  have hspaces : '|' ∉ List.replicate (width - 1) ' ' := by
    simp [List.mem_replicate]
  have hgutter : (drawn width digits text).gutter.idxOf? '|' =
      some (width - 1) := by
    simpa [drawn] using idxOf?_bar hspaces []
  have hcarets : (drawn width digits text).carets.idxOf? '|' =
      some (width - 1) := by
    simpa [drawn] using idxOf?_bar hspaces
      (' ' :: List.replicate text.length '^')
  have hline : (drawn width digits text).line.idxOf? '|' =
      some (digits.length + 2) := by
    have hbefore : '|' ∉ ' ' :: digits ++ [' '] := by simp [hdigits]
    simpa [drawn] using idxOf?_bar hbefore (' ' :: text)
  constructor
  -- The bars alone settle the shift, even if there is no caret.
  · intro hshows
    obtain ⟨bar, hgutterBar, -, hlineBar⟩ := hshows.bars
    rw [hgutter, Option.some.injEq] at hgutterBar
    rw [hline, Option.some.injEq] at hlineBar
    omega
  · intro hshift
    refine ⟨⟨' ' :: digits ++ [' ', '|', ' '], by simp [drawn]⟩,
      ⟨width - 1, hgutter, hcarets, ?_⟩, fun column => ?_⟩
    case refine_1 =>
      rw [hline, Option.some.injEq]
      omega
    case refine_2 =>
      have hbefore : '^' ∉ List.replicate (width - 1) ' ' ++ ['|', ' '] := by
        simp [List.mem_replicate]
      have hsplit : (drawn width digits text).carets =
          List.replicate (width - 1) ' ' ++ ['|', ' '] ++
            List.replicate text.length '^' := by
        simp [drawn]
      have hlength : (drawn width digits text).line.length =
          digits.length + 4 + text.length := by
        simp only [drawn, List.length_append, List.length_cons]
        omega
      rw [hsplit, getElem?_caret hbefore, hlength]
      simp only [List.length_append, List.length_replicate, List.length_cons,
        List.length_nil]
      omega

/-- A decimal number has digits only. -/
theorem not_mem_toString (number : Nat) {c : Char} (hc : c.isDigit = false) :
    c ∉ (toString number).toList := by
  intro hmem
  rw [Nat.toString_eq_repr, Nat.toList_repr] at hmem
  rw [Nat.isDigit_of_mem_toDigits (by decide) (by decide) hmem] at hc
  cases hc

theorem toList_gutter (number : String) :
    (Text.alignRight (number.length + 2) "|").toList =
      List.replicate (number.toList.length + 1) ' ' ++ ['|'] := by
  have hbar : "|".length = 1 := rfl
  rw [String.length_toList]
  simp [Text.alignRight, Text.spaces, hbar]

/-- The rows of a rendering that shows something of its line. -/
theorem toList_render (diagnostic : Diagnostic) {source : String}
    (hshown : sourceLine diagnostic.line source ≠ []) :
    (diagnostic.render source).toList =
      let text := sourceLine diagnostic.line source
      let digits := (toString diagnostic.line).toList
      let picture := Picture.drawn (digits.length + 2) digits text
      diagnostic.headline.toList ++ '\n' ::
        ("-> ".toList ++ diagnostic.file.toList) ++
        '\n' :: (picture.gutter ++ '\n' :: (picture.line ++ '\n' ::
          (picture.carets ++ ['\n']))) := by
  have hempty : (sourceLine diagnostic.line source).isEmpty = false := by
    rwa [List.isEmpty_eq_false_iff]
  unfold render
  generalize toString diagnostic.line = number
  dsimp only
  rw [hempty]
  simp [toList_gutter, Picture.drawn]

theorem picture?_render (diagnostic : Diagnostic) {source : String}
    (hshown : sourceLine diagnostic.line source ≠ []) :
    picture? (diagnostic.render source) =
      let digits := (toString diagnostic.line).toList
      some (.drawn (digits.length + 2) digits
        (sourceLine diagnostic.line source)) := by
  have hdigits : '\n' ∉ (toString diagnostic.line).toList :=
    not_mem_toString _ rfl
  have hline : '\n' ∉ sourceLine diagnostic.line source := fun hmem =>
    lineFeed_not_mem_selected _ _ (sourceLine_subset _ _ hmem)
  -- The headline and the file may have line feeds of their own; the last three
  -- rows have none.
  refine picture?_eq_some (toList_render diagnostic hshown) ?_ ?_ ?_
  case refine_1 => simp [List.mem_replicate]
  case refine_2 =>
    generalize (toString diagnostic.line).toList = digits at hdigits ⊢
    simp [hdigits, hline]
  case refine_3 => simp [List.mem_replicate]

/-- Of a selected line that is not blank, every rendering shows the text with
the bars of the gutter and the carets in one column and a caret for each
character.  The gutter lacks a column: the line stands one column to the right
of both, whatever its number. -/
theorem rendered_line_stands_right (diagnostic : Diagnostic) (source : String)
    (hshown : ∃ c ∈ selected diagnostic.line source, Text.isBlank c = false) :
    ∃ picture, picture? (diagnostic.render source) = some picture ∧
      ∀ shift, picture.Shows (sourceLine diagnostic.line source) shift ↔
        shift = 1 := by
  have hline : sourceLine diagnostic.line source ≠ [] := by
    obtain ⟨c, hc, hblank⟩ := hshown
    intro hnil
    rw [sourceLine_eq_nil_iff.mp hnil c hc] at hblank
    cases hblank
  have hbar : '|' ∉ (toString diagnostic.line).toList := not_mem_toString _ rfl
  refine ⟨_, picture?_render diagnostic hline, fun shift => ?_⟩
  rw [Picture.drawn_shows_iff (by omega) hbar]
  omega

def ifTestReport : Diagnostic :=
  ⟨.typing .ifTest, 3, "sample.tny"⟩

def ifTestSource : String :=
  "\n\nif x then"

theorem ifTest_line_stands_right :
    ∃ picture, picture? (ifTestReport.render ifTestSource) = some picture ∧
      ∀ shift, picture.Shows "if x then".toList shift ↔ shift = 1 :=
  rendered_line_stands_right ifTestReport ifTestSource
    ⟨'i', by decide +kernel, by decide⟩

/-- The bars of a rendering are out of line. -/
theorem ifTest_rendering_misaligned :
    selected 3 ifTestSource = "if x then".toList ∧
      ∃ picture, picture? (ifTestReport.render ifTestSource) = some picture ∧
        ¬picture.Aligned "if x then".toList := by
  refine ⟨by decide +kernel,
    ⟨"  |".toList, " 3 | if x then".toList, "  | ^^^^^^^^^".toList⟩,
    by decide +kernel, ?_⟩
  intro haligned
  obtain ⟨bar, hgutter, -, hline⟩ := haligned.bars
  rw [show "  |".toList.idxOf? '|' = some 2 from rfl,
    Option.some.injEq] at hgutter
  rw [show " 3 | if x then".toList.idxOf? '|' = some 3 from rfl,
    Option.some.injEq] at hline
  omega

end Diagnostic

end TinyCompiler
