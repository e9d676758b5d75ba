import Mathlib.Data.List.Basic
import Std.Data.String.ToInt
import TinyCompiler.Proofs.DataArea
import TinyCompiler.Proofs.RenderedColumns

/-!
# Listings of programs

A row of a listing ends with its only line feed, and the first space in the text
of an instruction ends the mnemonic.  A listing thus determines the code.  It
does not print the size of the memory.  The code of a generated program mentions
every cell of its memory, so there the listing determines the whole program.
-/

namespace TinyCompiler

open Function

/-! ## Separators -/

/-- A separator that occurs in neither of two texts cuts both of them off. -/
theorem Text.append_separator_inj {separator : Char}
    {first second rest others : List Char} (hfirst : separator ∉ first)
    (hsecond : separator ∉ second)
    (happend : first ++ separator :: rest = second ++ separator :: others) :
    first = second ∧ rest = others := by
  induction first generalizing second with
  | nil =>
      cases second with
      | nil => exact ⟨rfl, (List.cons.inj happend).2⟩
      | cons c second =>
          exact absurd ((List.cons.inj happend).1 ▸ List.mem_cons_self) hsecond
  | cons c first ih =>
      cases second with
      | nil =>
          exact absurd ((List.cons.inj happend).1 ▸ List.mem_cons_self) hfirst
      | cons d second =>
          obtain ⟨rfl, hbehind⟩ := List.cons.inj happend
          obtain ⟨rfl, hrest⟩ := ih (List.not_mem_of_not_mem_cons hfirst)
            (List.not_mem_of_not_mem_cons hsecond) hbehind
          exact ⟨rfl, hrest⟩

/-! ## Numbers -/

namespace Text

theorem writeInt32_injective : Injective writeInt32 := fun _ _ htext =>
  Int32.toInt_inj.mp (Int.repr_injective htext)

theorem not_mem_writeInt32 (value : Int32) {c : Char}
    (hdigit : c.isDigit = false) (hminus : c ≠ '-') :
    c ∉ (writeInt32 value).toList := by
  unfold writeInt32
  cases value.toInt with
  | ofNat magnitude => exact Diagnostic.not_mem_toString magnitude hdigit
  | negSucc magnitude =>
      have htext : (toString (Int.negSucc magnitude)).toList =
          '-' :: (toString magnitude.succ).toList := String.toList_append
      rw [htext, List.mem_cons, not_or]
      exact ⟨hminus, Diagnostic.not_mem_toString magnitude.succ hdigit⟩

end Text

/-! ## Instructions -/

/-- A value stands behind a number sign, and no location has one. -/
theorem Operand.text_injective : Injective Operand.text := by
  have hsign : ∀ value location,
      (immediate value).text ≠ (memory location).text := by
    intro value location heq
    have hmem : '#' ∈ (memory location).text.toList := by
      rw [← heq]
      simp [text]
    exact Diagnostic.not_mem_toString location rfl hmem
  intro first second htext
  cases first with
  | immediate value =>
      cases second with
      | immediate other =>
          exact congrArg immediate (Text.writeInt32_injective
            ((String.append_right_inj "#").mp htext))
      | memory location => exact absurd htext (hsign value location)
  | memory location =>
      cases second with
      | immediate value => exact absurd htext.symm (hsign value location)
      | memory other => exact congrArg memory (Nat.repr_injective htext)

theorem Operand.not_mem_text (operand : Operand) {c : Char}
    (hdigit : c.isDigit = false) (hminus : c ≠ '-') (hsharp : c ≠ '#') :
    c ∉ operand.text.toList := by
  cases operand with
  | immediate value =>
      have htext : (immediate value).text.toList =
          '#' :: (Text.writeInt32 value).toList :=
        String.toList_append
      rw [htext, List.mem_cons, not_or]
      exact ⟨hsharp, Text.not_mem_writeInt32 value hdigit hminus⟩
  | memory location => exact Diagnostic.not_mem_toString location hdigit

namespace Instruction

/-- What is printed behind the mnemonic.  The target of a jump is printed like a
location. -/
def operand? : Instruction → Option Operand
  | .loadImmediate value => some (.immediate value)
  | .load location | .store location | .read location => some (.memory location)
  | .operate _ operand => some operand
  | .jump target | .jumpIfZero target => some (.memory target)
  | .write | .halt => none

theorem operandText?_eq (instruction : Instruction) :
    instruction.operandText? = instruction.operand?.map Operand.text := by
  cases instruction <;> rfl

theorem isUpper_mnemonic (instruction : Instruction) :
    instruction.mnemonic.toList.all Char.isUpper = true := by
  cases instruction with
  | operate operator operand =>
      change operator.mnemonic.toList.all Char.isUpper = true
      cases operator <;> decide
  | _ => simp only [mnemonic]; decide

theorem not_mem_mnemonic (instruction : Instruction) {c : Char}
    (hc : c.isUpper = false) :
    c ∉ instruction.mnemonic.toList := by
  intro hmem
  rw [List.all_eq_true.mp instruction.isUpper_mnemonic c hmem] at hc
  cases hc

/-- The instruction with such a mnemonic and operand. -/
def ofParts? : String → Option Operand → Option Instruction
  | "LDC", some (.immediate value) => some (.loadImmediate value)
  | "LD", some (.memory location) => some (.load location)
  | "ST", some (.memory location) => some (.store location)
  | "JMP", some (.memory target) => some (.jump target)
  | "JZ", some (.memory target) => some (.jumpIfZero target)
  | "IN", some (.memory location) => some (.read location)
  | "OUT", none => some .write
  | "HALT", none => some .halt
  | mnemonic, operand? => do
      let operator ← Operator.all.find? fun operator =>
        operator.mnemonic = mnemonic
      return .operate operator (← operand?)

theorem ofParts?_parts (instruction : Instruction) :
    ofParts? instruction.mnemonic instruction.operand? = some instruction := by
  cases instruction with
  | operate operator operand => cases operator <;> cases operand <;> rfl
  | _ => rfl

theorem eq_of_parts {first second : Instruction}
    (hmnemonic : first.mnemonic = second.mnemonic)
    (hoperand : first.operand? = second.operand?) : first = second := by
  refine Option.some.inj ?_
  rw [← first.ofParts?_parts, hmnemonic, hoperand, ofParts?_parts]

theorem toList_text_of_none {instruction : Instruction}
    (hoperand : instruction.operand? = none) :
    instruction.text.toList = instruction.mnemonic.toList := by
  simp only [text, operandText?_eq, hoperand, Option.map_none]

theorem toList_text_of_some {instruction : Instruction} {operand : Operand}
    (hoperand : instruction.operand? = some operand) :
    instruction.text.toList = instruction.mnemonic.toList ++ ' ' ::
      operand.text.toList := by
  simp [text, operandText?_eq, hoperand]

/-- The first space of a text, if it has one, ends the mnemonic. -/
theorem text_injective : Injective Instruction.text := by
  intro first second htext
  have hspace : ∀ instruction : Instruction,
      ' ' ∉ instruction.mnemonic.toList :=
    fun instruction => instruction.not_mem_mnemonic rfl
  have hchars := congrArg String.toList htext
  cases hfirst : first.operand? with
  | none =>
      rw [toList_text_of_none hfirst] at hchars
      cases hsecond : second.operand? with
      | none =>
          rw [toList_text_of_none hsecond] at hchars
          exact eq_of_parts (String.toList_inj.mp hchars)
            (hfirst.trans hsecond.symm)
      | some other =>
          rw [toList_text_of_some hsecond] at hchars
          refine absurd ?_ (hspace first)
          simp [hchars]
  | some operand =>
      rw [toList_text_of_some hfirst] at hchars
      cases hsecond : second.operand? with
      | none =>
          rw [toList_text_of_none hsecond] at hchars
          refine absurd ?_ (hspace second)
          simp [← hchars]
      | some other =>
          rw [toList_text_of_some hsecond] at hchars
          obtain ⟨hmnemonic, hoperand⟩ :=
            Text.append_separator_inj (hspace first) (hspace second) hchars
          refine eq_of_parts (String.toList_inj.mp hmnemonic) ?_
          rw [hfirst, hsecond,
            Operand.text_injective (String.toList_inj.mp hoperand)]

theorem lineFeed_not_mem_text (instruction : Instruction) :
    '\n' ∉ instruction.text.toList := by
  have hmnemonic : '\n' ∉ instruction.mnemonic.toList :=
    instruction.not_mem_mnemonic rfl
  cases hoperand : instruction.operand? with
  | none => rwa [toList_text_of_none hoperand]
  | some operand =>
      have htext : '\n' ∉ operand.text.toList :=
        operand.not_mem_text rfl (by decide) (by decide)
      rw [toList_text_of_some hoperand, List.mem_append, List.mem_cons]
      simp [hmnemonic, htext]

end Instruction

/-! ## Rows -/

namespace Program

/-- Rows that end with their only line feed, one for each item, determine the
items. -/
theorem join_mapIdx_injective {Item : Type} {row : Nat → Item → String}
    (hrow : ∀ address, Injective (row address))
    (hends : ∀ address item, ∃ cells,
      '\n' ∉ cells ∧ (row address item).toList = cells ++ ['\n']) :
    Injective fun items : List Item => String.join (items.mapIdx row) := by
  intro items others hchars
  replace hchars := congrArg String.toList hchars
  simp only [String.toList_join] at hchars
  have hnonempty : ∀ address item rest,
      (row address item).toList ++ rest ≠ [] := by
    intro address item rest
    obtain ⟨cells, -, hcells⟩ := hends address item
    simp [hcells]
  induction items generalizing row others with
  | nil =>
      cases others with
      | nil => rfl
      | cons other others =>
          rw [List.mapIdx_cons, List.flatMap_cons] at hchars
          exact absurd hchars.symm (hnonempty 0 other _)
  | cons item items ih =>
      cases others with
      | nil =>
          rw [List.mapIdx_cons, List.flatMap_cons] at hchars
          exact absurd hchars (hnonempty 0 item _)
      | cons other others =>
          obtain ⟨cells, hcells, hitem⟩ := hends 0 item
          obtain ⟨columns, hcolumns, hother⟩ := hends 0 other
          simp only [List.mapIdx_cons, List.flatMap_cons, hitem, hother,
            List.append_assoc, List.singleton_append] at hchars
          -- Both first rows end at the first line feed.
          obtain ⟨rfl, hrest⟩ :=
            Text.append_separator_inj hcells hcolumns hchars
          have hfirst : item = other :=
            hrow 0 (String.toList_inj.mp (hitem.trans hother.symm))
          have hbehind : items = others :=
            ih (fun address => hrow (address + 1))
            (fun address => hends (address + 1)) hrest
              (fun address => hnonempty (address + 1))
          rw [hfirst, hbehind]

theorem line_injective (address : Nat) : Injective (line address) := by
  intro first second hline
  unfold line at hline
  rw [String.append_left_inj, String.append_right_inj] at hline
  exact Instruction.text_injective hline

theorem line_ends (address : Nat) (instruction : Instruction) :
    ∃ cells, '\n' ∉ cells ∧ (line address instruction).toList =
      cells ++ ['\n'] := by
  have haddress : '\n' ∉ (toString address).toList :=
    Diagnostic.not_mem_toString address rfl
  refine ⟨(Text.alignRight 3 (toString address)).toList ++ ": ".toList ++
    instruction.text.toList, ?_, ?_⟩
  · generalize toString address = digits at haddress ⊢
    simp [Text.alignRight, Text.spaces, List.mem_replicate, haddress,
      instruction.lineFeed_not_mem_text]
  · simp [line]

theorem code_eq_of_listing_eq {first second : Program}
    (hlisting : first.listing = second.listing) :
    first.code = second.code :=
  Array.toList_inj.mp (join_mapIdx_injective line_injective line_ends hlisting)

/-! ## Generated programs -/

/-- A program generated from a parsed tree after an analysis, with the table of
the analysis. -/
def Generated (program : Program) : Prop :=
  ∃ tokens file tree sourceFile analysis, Parser.parse tokens file = .ok tree ∧
    analyze tree sourceFile = .ok analysis ∧
    generate analysis.tree analysis.symbols = .ok program

theorem Generated.eq_ofBlock {program : Program}
    (hgenerated : program.Generated) :
    ∃ block : Block Mark, program = .ofBlock block.symbols block := by
  obtain ⟨tokens, file, tree, sourceFile, known, hparse, hknown, hprogram⟩ :=
    hgenerated
  obtain ⟨block, analysis, -, hanalyze, -, hgenerate⟩ :=
    generate_after_analyze (Parser.parse_built hparse)
      (Parser.parse_acyclic hparse) sourceFile
  rw [hknown] at hanalyze
  cases hanalyze
  rw [hprogram] at hgenerate
  exact ⟨block, Except.ok.inj hgenerate⟩

/-- A listing determines the code.  Among generated programs it determines the
size of the memory as well, which it does not print. -/
theorem listing_loses_nothing :
    (∀ first second : Program,
      first.listing = second.listing → first.code = second.code) ∧
      ∀ first second : Program, first.Generated → second.Generated →
        first.listing = second.listing → first = second := by
  refine ⟨fun first second => code_eq_of_listing_eq, ?_⟩
  intro first second hfirst hsecond hlisting
  have hcode := code_eq_of_listing_eq hlisting
  obtain ⟨block, rfl⟩ := hfirst.eq_ofBlock
  obtain ⟨other, rfl⟩ := hsecond.eq_ofBlock
  -- The code mentions the cells of the memory and no others.
  have hmemory : (ofBlock block.symbols block).memorySize =
      (ofBlock other.symbols other).memorySize := by
    refine eq_of_forall_lt_iff fun location => ?_
    rw [← block.mentions_iff_lt_memorySize, ← other.mentions_iff_lt_memorySize,
      hcode]
  exact congrArg₂ Program.mk hcode hmemory

/-- The listing of a program that writes a variable does not show the name. -/
def writeName (name : String) : List Token :=
  [⟨.writeWord, "write", 1⟩, ⟨.identifier, name, 1⟩]

def writeNameTree (name : String) : Tree where
  nodes := #[.fresh 1 (.var name), .fresh 1 (.write 0)]
  root := some 1

theorem writing_listing (name : String) :
    ∃ tree analysis program,
      Parser.parse (writeName name) "sample" = .ok tree ∧
        analyze tree "sample" = .ok analysis ∧
        generate analysis.tree analysis.symbols = .ok program ∧
        program.listing = "  0: LD 0\n  1: OUT\n  2: HALT\n" := by
  have hparse : Parser.parse (writeName name) "sample" =
    .ok (writeNameTree name) := rfl
  obtain ⟨block, analysis, hblock, hanalyze, -, hgenerate⟩ :=
    generate_after_analyze (Parser.parse_built hparse)
      (Parser.parse_acyclic hparse) "sample"
  cases hblock
  refine ⟨_, analysis, _, hparse, hanalyze, hgenerate, ?_⟩
  generalize hblock : Block.cons _ _ = block
  have hnames : block.names = [name] := by rw [← hblock]; rfl
  have hcell : block.symbols.locate name = 0 := by
    have hmem : 0 ∈ block.names.map block.symbols.locate := by
      rw [block.mem_map_locate_iff, block.size_symbols, hnames]
      exact Nat.one_pos
    rw [hnames] at hmem
    exact (List.mem_singleton.mp hmem).symm
  have hcode : (ofBlock block.symbols block).code =
      #[.load (block.symbols.locate name), .write, .halt] := by
    subst hblock
    rfl
  rw [listing, hcode, hcell]
  decide +kernel

theorem renamed_variable_program :
    ∃ first second : Program,
      (∃ tree analysis,
        Parser.parse (writeName "a") "sample" = .ok tree ∧
          analyze tree "sample" = .ok analysis ∧
          generate analysis.tree analysis.symbols = .ok first) ∧
      (∃ tree analysis,
        Parser.parse (writeName "b") "sample" = .ok tree ∧
          analyze tree "sample" = .ok analysis ∧
          generate analysis.tree analysis.symbols = .ok second) ∧
      first.listing = "  0: LD 0\n  1: OUT\n  2: HALT\n" ∧ first = second := by
  obtain ⟨tree, analysis, first, hparse, hanalyze, hgenerate, hfirst⟩ :=
    writing_listing "a"
  obtain ⟨other, known, second, hother, hknown, hrenamed, hsecond⟩ :=
    writing_listing "b"
  refine ⟨first, second, ⟨tree, analysis, hparse, hanalyze, hgenerate⟩,
    ⟨other, known, hother, hknown, hrenamed⟩, hfirst, ?_⟩
  exact listing_loses_nothing.2 first second
    ⟨_, _, _, _, _, hparse, hanalyze, hgenerate⟩
    ⟨_, _, _, _, _, hother, hknown, hrenamed⟩ (hfirst.trans hsecond.symm)

end Program

end TinyCompiler
