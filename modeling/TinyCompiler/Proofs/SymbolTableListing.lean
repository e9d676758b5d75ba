import TinyCompiler.Proofs.LexicalGrammar
import TinyCompiler.Proofs.ProgramListing
import TinyCompiler.Proofs.SymbolTableCalls

/-!
# Listings of symbol tables

The cells of a row are set in columns of a fixed width, which names, locations
and line numbers may exceed.  Blanks stand between any two of them all the same,
and in none of them when names are words, so that the words of a row are its
cells.  The rows give the entries back, and the entries the whole table: the
index beside them is the one that their names and locations make up.
-/

namespace TinyCompiler

/-! ## Words of a text -/

namespace Text

section Words

variable {text rest word gap : List Char}

theorem words_of_blank (hblank : ∀ c ∈ text, isBlank c = true) :
    words text = [] := by
  rw [words, List.dropWhile_eq_nil_iff.mpr hblank]

theorem words_of_dropWhile {c : Char}
    (hdrop : text.dropWhile isBlank = c :: rest) :
    words text = (c :: rest.takeWhile fun d => !isBlank d) ::
      words (rest.dropWhile fun d => !isBlank d) := by
  rw [words, hdrop]

theorem words_blanks_append (hgap : ∀ c ∈ gap, isBlank c = true)
    (text : List Char) :
    words (gap ++ text) = words text := by
  have hdrop : (gap ++ text).dropWhile isBlank = text.dropWhile isBlank :=
    List.dropWhile_append_of_pos hgap
  cases hrest : text.dropWhile isBlank with
  | nil =>
      rw [words_of_blank (List.dropWhile_eq_nil_iff.mp hrest),
        words_of_blank (List.dropWhile_eq_nil_iff.mp (hdrop.trans hrest))]
  | cons c rest =>
      rw [words_of_dropWhile hrest, words_of_dropWhile (hdrop.trans hrest)]

/-- A run of other characters in front of white space is the first word. -/
theorem words_append (hne : word ≠ []) (hword : ∀ c ∈ word, isBlank c = false)
    (hgap : gap ≠ []) (hblank : ∀ c ∈ gap, isBlank c = true)
    (rest : List Char) :
    words (word ++ (gap ++ rest)) = word :: words rest := by
  obtain ⟨c, letters, rfl⟩ := List.exists_cons_of_ne_nil hne
  obtain ⟨d, blanks, rfl⟩ := List.exists_cons_of_ne_nil hgap
  obtain ⟨hc, hletters⟩ := List.forall_mem_cons.mp hword
  have hrun : ∀ e ∈ letters, (!isBlank e) = true := fun e he => by
    rw [hletters e he]; rfl
  have hd : (!isBlank d) = false := by rw [hblank d List.mem_cons_self]; rfl
  have hdrop : (c :: letters ++ (d :: blanks ++ rest)).dropWhile isBlank =
      c :: (letters ++ (d :: blanks ++ rest)) := by
    simp [hc]
  rw [words_of_dropWhile hdrop, List.takeWhile_append_of_pos hrun,
    List.dropWhile_append_of_pos hrun, List.cons_append,
    List.takeWhile_cons_of_neg (by simp [hd]),
    List.dropWhile_cons_of_neg (by simp [hd]), List.append_nil,
    ← List.cons_append, words_blanks_append hblank]

end Words

/-! ## Columns -/

theorem not_blank_of_mem_toString (number : Nat) :
    ∀ c ∈ (toString number).toList, isBlank c = false := by
  intro c hc
  rw [← Bool.not_eq_true]
  intro hblank
  have hdigit := (Scanner.not_letter_digit_of_blank hblank).2
  rw [Bool.not_eq_true] at hdigit
  exact Diagnostic.not_mem_toString number hdigit hc

theorem toString_toList_ne_nil (number : Nat) :
    (toString number).toList ≠ [] := by
  rw [Nat.toString_eq_repr, Nat.toList_repr]
  exact Nat.toDigits_ne_nil

@[simp] theorem isBlank_space : isBlank ' ' = true := by decide

theorem spaces_blank (count : Nat) :
    ∀ c ∈ (spaces count).toList, isBlank c = true := by
  intro c hc
  rw [spaces, String.toList_ofList, List.mem_replicate] at hc
  rw [hc.2, isBlank_space]

/-- Cells in a column to the right of each other, each with a space behind
it. -/
theorem words_cells (width : Nat) (numbers : List Nat) :
    words (numbers.flatMap fun number =>
      (alignRight width (toString number) ++ " ").toList) =
      numbers.map fun number => (toString number).toList := by
  induction numbers with
  | nil => exact words_of_blank (by simp)
  | cons number numbers ih =>
      have hcell : (alignRight width (toString number) ++ " ").toList =
          (spaces (width - (toString number).length)).toList ++
            ((toString number).toList ++ [' ']) := by
        simp [alignRight]
      rw [List.flatMap_cons, hcell, List.append_assoc, List.append_assoc,
        words_blanks_append (spaces_blank _),
        words_append (toString_toList_ne_nil number)
          (not_blank_of_mem_toString number)
          (List.cons_ne_nil _ _) (by simp), ih, List.map_cons]

end Text

/-! ## Rows -/

namespace Symbol

/-- What a row says of a variable: its name, its location and its lines. -/
def cells (symbol : Symbol) : List (List Char) :=
  symbol.name.toList :: (toString symbol.location).toList ::
    symbol.lines.map fun line => (toString line).toList

/-- The variable of which a row says this. -/
def ofCells? : List (List Char) → Option Symbol
  | name :: location :: lines =>
      ofLines? (String.ofList name) (Nat.ofDigitChars 10 location 0)
        (lines.map fun line => Nat.ofDigitChars 10 line 0)
  | _ => none

theorem ofDigitChars_toString (number : Nat) :
    Nat.ofDigitChars 10 (toString number).toList 0 = number := by
  rw [Nat.toString_eq_repr, Nat.toList_repr, Nat.ofDigitChars_ten_toDigits]

theorem ofCells?_cells (symbol : Symbol) :
    ofCells? symbol.cells = some symbol := by
  have hlines : (symbol.lines.map fun line => (toString line).toList).map
      (fun line => Nat.ofDigitChars 10 line 0) = symbol.lines := by
    rw [List.map_map]
    exact List.map_id'' ofDigitChars_toString symbol.lines
  rw [cells, ofCells?, hlines, String.ofList_toList, ofDigitChars_toString,
    ofLines?_lines]

end Symbol

namespace SymbolTable

/-- The text of a row up to its line end. -/
def rowText (symbol : Symbol) : List Char :=
  symbol.name.toList ++
    (((Text.spaces (14 - symbol.name.length)).toList ++ [' ']) ++
    ((toString symbol.location).toList ++
      (((Text.spaces (8 - (toString symbol.location).length)).toList ++
        [' ', ' ']) ++
        symbol.lines.flatMap fun line =>
          (Text.alignRight 4 (toString line) ++ " ").toList)))

theorem toList_row (symbol : Symbol) :
    (row symbol).toList = rowText symbol ++ ['\n'] := by
  simp [row, rowText, Text.alignLeft, List.flatMap_map]

theorem words_rowText {symbol : Symbol} (hname : IsWord symbol.name) :
    Text.words (rowText symbol) = symbol.cells := by
  have hne : symbol.name.toList ≠ [] := by simpa using hname.1
  have hgap : ∀ count blanks, (∀ c ∈ blanks, Text.isBlank c = true) →
      ∀ c ∈ (Text.spaces count).toList ++ blanks, Text.isBlank c = true := by
    intro count blanks hblanks c hc
    exact (List.mem_append.mp hc).elim (Text.spaces_blank count c) (hblanks c)
  rw [rowText,
    Text.words_append hne hname.not_blank (by simp) (hgap _ _ (by simp)),
    Text.words_append (Text.toString_toList_ne_nil _)
      (Text.not_blank_of_mem_toString _) (by simp)
      (hgap _ _ (by simp)),
    Text.words_cells]
  rfl

theorem rowText_plain {symbol : Symbol} (hname : IsWord symbol.name) {c : Char}
    (hc : c ∈ rowText symbol) : c = ' ' ∨ Text.isBlank c = false := by
  have hspace : ∀ count, c ∈ (Text.spaces count).toList → c = ' ' := by
    intro count hmem
    rw [Text.spaces, String.toList_ofList, List.mem_replicate] at hmem
    exact hmem.2
  have hdigit : ∀ number : Nat,
      c ∈ (toString number).toList → Text.isBlank c = false :=
    fun number => Text.not_blank_of_mem_toString number c
  simp only [rowText, Text.alignRight, String.toList_append, List.mem_append,
    List.mem_flatMap] at hc
  rcases hc with
    hname' | (hgap | hgap) | hlocation | (hgap | hgap) | ⟨line, -,
      (hgap | hline) | hgap⟩
  · exact .inr (hname.not_blank c hname')
  · exact .inl (hspace _ hgap)
  · exact .inl (List.mem_singleton.mp hgap)
  · exact .inr (hdigit _ hlocation)
  · exact .inl (hspace _ hgap)
  · exact .inl (by simpa using hgap)
  · exact .inl (hspace _ hgap)
  · exact .inr (hdigit _ hline)
  · exact .inl (by simpa using hgap)

theorem drop_headings {first second : List Char}
    (hfirst : '\n' ∉ first ∧ '\r' ∉ first)
    (hsecond : '\n' ∉ second ∧ '\r' ∉ second) (rest : List Char) :
    (Text.lines (first ++ '\n' :: (second ++ ['\n']) ++ rest)).drop 2 =
      Text.lines rest := by
  rw [List.append_assoc, List.cons_append, List.append_assoc,
    List.singleton_append, Text.lines_row hfirst.1 hfirst.2,
    Text.lines_row hsecond.1 hsecond.2]
  rfl

/-- Behind two lines of headings a listing has one line for each variable. -/
theorem lines_listing {table : SymbolTable}
    (hnames : ∀ symbol ∈ table.toList, IsWord symbol.name) :
    (Text.lines table.listing.toList).drop 2 = table.toList.map rowText := by
  have hrows : ∀ row ∈ table.toList.map rowText, '\n' ∉ row ∧ '\r' ∉ row := by
    intro row hrow
    obtain ⟨symbol, hsymbol, rfl⟩ := List.mem_map.mp hrow
    have hplain : ∀ c ∈ rowText symbol, c = ' ' ∨ Text.isBlank c = false :=
      fun c => rowText_plain (hnames symbol hsymbol)
    exact ⟨fun hfeed => absurd (hplain _ hfeed) (by decide),
      fun hreturn => absurd (hplain _ hreturn) (by decide)⟩
  have hheadings : ∃ first second : List Char, ('\n' ∉ first ∧ '\r' ∉ first) ∧
      ('\n' ∉ second ∧ '\r' ∉ second) ∧
      ("Variable Name  Location   Line Numbers\n" ++
        "-------------  --------   ------------\n").toList =
          first ++ '\n' :: (second ++ ['\n']) :=
    ⟨"Variable Name  Location   Line Numbers".toList,
      "-------------  --------   ------------".toList, by decide +kernel⟩
  obtain ⟨first, second, hfirst, hsecond, hheadings⟩ := hheadings
  have hbody : (table.toList.map row).flatMap String.toList =
      (table.toList.map rowText).flatMap fun row => row ++ ['\n'] := by
    simp only [List.flatMap_map, toList_row]
  have hlisting : table.listing.toList = first ++ '\n' :: (second ++ ['\n']) ++
      (table.toList.map rowText).flatMap fun row => row ++ ['\n'] := by
    unfold listing
    rw [String.toList_append, String.toList_join, hbody]
    exact congrArg (· ++ _) hheadings
  rw [hlisting, drop_headings hfirst hsecond, Text.lines_rows hrows]

/-- The variables that the rows of a listing are of. -/
def readRows (listing : String) : List (Option Symbol) :=
  ((Text.lines listing.toList).drop 2).map fun row =>
    Symbol.ofCells? (Text.words row)

/-! ## The index -/

/-- The index that names and locations make up, in order. -/
def indexOf (places : List (String × Nat)) : Std.HashMap String Nat :=
  places.foldl (fun index place => index.insert place.1 place.2) ∅

/-- The index is the one of the entries. -/
def Indexed (table : SymbolTable) : Prop :=
  table.index =
    indexOf (table.toList.map fun symbol => (symbol.name, symbol.location))

theorem Indexed.resolve {table : SymbolTable} (hindexed : table.Indexed)
    (name : String) (line : Nat) : (table.resolve name line).2.Indexed := by
  unfold SymbolTable.resolve
  cases table.location? name with
  | some location =>
      change table.index = _
      rw [map_toList_refer table location line fun _ => rfl]
      exact hindexed
  | none =>
      have htoList : (table.insert name line).toList =
          table.toList ++ [⟨name, table.size, line, []⟩] := Array.toList_push
      change table.index.insert name table.size = _
      rw [htoList, List.map_append, indexOf, List.foldl_append, hindexed]
      rfl

theorem Indexed.resolveAll {table : SymbolTable} (hindexed : table.Indexed)
    (occurrences : List (String × Nat)) :
    (table.resolveAll occurrences).Indexed := by
  induction occurrences generalizing table with
  | nil => exact hindexed
  | cons occurrence rest ih =>
      exact ih (hindexed.resolve occurrence.1 occurrence.2)

theorem resolveAll_indexed (occurrences : List (String × Nat)) :
    (SymbolTable.empty.resolveAll occurrences).Indexed := by
  have hempty : SymbolTable.empty.Indexed := rfl
  exact hempty.resolveAll occurrences

theorem Indexed.eq_of_toList_eq {table other : SymbolTable}
    (htable : table.Indexed) (hother : other.Indexed)
    (htoList : table.toList = other.toList) : table = other := by
  have hindex : table.index = other.index := by rw [htable, hother, htoList]
  have hentries : table.entries = other.entries := Array.toList_inj.mp htoList
  exact congrArg₂ SymbolTable.mk hindex hentries

/-! ## Tables of words -/

theorem resolveAll_words {occurrences : List (String × Nat)}
    (hwords : ∀ occurrence ∈ occurrences, IsWord occurrence.1) :
    ∀ symbol ∈ (SymbolTable.empty.resolveAll occurrences).toList,
      IsWord symbol.name := by
  intro symbol hsymbol
  have hname := List.mem_map_of_mem (f := Symbol.name) hsymbol
  rw [(resolveAll_records occurrences).names, List.mem_eraseDups] at hname
  obtain ⟨occurrence, hoccurrence, hsame⟩ := List.mem_map.mp hname
  exact hsame ▸ hwords occurrence hoccurrence

/-- The words of each row behind the two headings are the name, the location and
all the lines of a variable, in the order of the locations, however wide they
are.  So the rows give the variables back, and no other table of words has the
same listing. -/
theorem listing_gives_table_back (occurrences : List (String × Nat))
    (hwords : ∀ occurrence ∈ occurrences, IsWord occurrence.1) :
    let table := SymbolTable.empty.resolveAll occurrences
    ((Text.lines table.listing.toList).drop 2).map Text.words =
      table.toList.map Symbol.cells ∧
      table.toList.map Symbol.location = List.range table.size ∧
      readRows table.listing = table.toList.map some ∧
      ∀ others : List (String × Nat),
        (∀ occurrence ∈ others, IsWord occurrence.1) →
        table.listing = (SymbolTable.empty.resolveAll others).listing →
          table = SymbolTable.empty.resolveAll others := by
  have hcells : ∀ given : List (String × Nat),
      (∀ occurrence ∈ given, IsWord occurrence.1) →
      ((Text.lines (SymbolTable.empty.resolveAll given).listing.toList).drop
        2).map Text.words =
        (SymbolTable.empty.resolveAll given).toList.map Symbol.cells := by
    intro given hgiven
    have hnames := resolveAll_words hgiven
    rw [lines_listing hnames, List.map_map]
    exact List.map_congr_left fun symbol hsymbol =>
      words_rowText (hnames symbol hsymbol)
  have hrows : ∀ given : List (String × Nat),
      (∀ occurrence ∈ given, IsWord occurrence.1) →
      readRows (SymbolTable.empty.resolveAll given).listing =
        (SymbolTable.empty.resolveAll given).toList.map some := by
    intro given hgiven
    have hread := congrArg (List.map Symbol.ofCells?) (hcells given hgiven)
    rw [List.map_map, List.map_map] at hread
    refine hread.trans
      (List.map_congr_left fun symbol _ => symbol.ofCells?_cells)
  refine ⟨hcells occurrences hwords, (resolveAll_records occurrences).locations,
    hrows occurrences hwords, ?_⟩
  intro others hothers hlisting
  refine (resolveAll_indexed occurrences).eq_of_toList_eq
    (resolveAll_indexed others) ?_
  refine List.map_injective_iff.mpr (Option.some_injective Symbol) ?_
  rw [← hrows occurrences hwords, hlisting, hrows others hothers]

/-- A name wider than its column, referred to again at a line wider than its
own. -/
def wideOccurrences : List (String × Nat) :=
  [("accumulatedtotal", 9), ("x", 100000), ("accumulatedtotal", 12345)]

theorem listing_of_wide_cells_gives_table_back :
    (∀ occurrence ∈ wideOccurrences, IsWord occurrence.1) ∧
      readRows (SymbolTable.empty.resolveAll wideOccurrences).listing =
        [some ⟨"accumulatedtotal", 0, 9, [12345]⟩,
          some ⟨"x", 1, 100000, []⟩] := by
  have hwords : ∀ occurrence ∈ wideOccurrences, IsWord occurrence.1 := by
    have hword : IsWord "accumulatedtotal" ∧ IsWord "x" := by decide
    simp [wideOccurrences, hword]
  obtain ⟨-, -, hread, -⟩ := listing_gives_table_back wideOccurrences hwords
  refine ⟨hwords,
    hread.trans ((resolveAll_records wideOccurrences).entries_eq.trans ?_)⟩
  decide +kernel

end SymbolTable
end TinyCompiler
