import TinyCompiler.Proofs.LexicalGrammar
import TinyCompiler.Proofs.Occurrences
import TinyCompiler.Proofs.ProgramListing
import TinyCompiler.Proofs.ProgramRows
import TinyCompiler.Proofs.RenderedColumns
import TinyCompiler.Proofs.TreeRenaming

/-!
# Listings of trees

The text of a listing gives its rows back: the blanks before a row tell its
depth, and no name has a line end.  So the listings of two parsed trees are the
same exactly if their programs are the same when the parts of every `if` are
joined.  Without an `else` the trees then have the same nodes as well, since a
parser lays the nodes of a program out in one way.
-/

namespace TinyCompiler

/-! ## Texts of rows -/

namespace Heading

def name? : Heading → Option String
  | .var name | .read name | .assign name => some name
  | .const _ | .op _ | .write | .branch | .loop => none

theorem symbol_injective : Function.Injective Operator.symbol := by
  intro operator other
  cases operator <;> cases other <;> decide

theorem text_injective : Function.Injective text := by
  intro heading other htext
  have hchars := congrArg String.toList htext
  -- Of two headings of different kinds the first characters are different
  -- already.
  cases heading <;> cases other <;> simp [text, String.toList_inj] at hchars ⊢
  case const.const => exact Text.writeInt32_injective hchars
  case op.op => exact symbol_injective hchars
  all_goals exact hchars

theorem text_cons (heading : Heading) :
    ∃ c rest, heading.text.toList = c :: rest ∧ c ≠ ' ' := by
  cases heading <;> simp [text]

/-- What the text of a heading begins with. -/
def labels : List String :=
  ["Const: ", "Id: ", "Op: ", "Read: ", "Assign to: ", "Write", "If", "Repeat"]

theorem not_mem_text {heading : Heading}
    (hname : ∀ name ∈ heading.name?, IsWord name) {c : Char}
    (hc : c = '\n' ∨ c = '\r') : c ∉ heading.text.toList := by
  have hblank : Text.isBlank c = true := by rcases hc with rfl | rfl <;> decide
  have hlabel : ∀ label ∈ labels, c ∉ label.toList := by
    rcases hc with rfl | rfl <;> decide
  have hbehind : ∀ label ∈ labels, ∀ detail : String, c ∉ detail.toList →
      c ∉ (label ++ detail).toList := by
    intro label hmem detail hdetail
    rw [String.toList_append, List.mem_append, not_or]
    exact ⟨hlabel label hmem, hdetail⟩
  have hword : ∀ name, IsWord name → c ∉ name.toList := by
    intro name hword hmem
    rw [hword.not_blank c hmem] at hblank
    cases hblank
  cases heading with
  | const value =>
      refine hbehind _ (by simp [labels])
        _ (Text.not_mem_writeInt32 value ?_ ?_)
      · rcases hc with rfl | rfl <;> decide
      · rcases hc with rfl | rfl <;> decide
  | var name =>
      exact hbehind _ (by simp [labels]) _ (hword name (hname name rfl))
  | op operator =>
      refine hbehind _ (by simp [labels]) _ ?_
      rcases hc with rfl | rfl <;> cases operator <;> decide
  | read name =>
      exact hbehind _ (by simp [labels]) _ (hword name (hname name rfl))
  | assign name =>
      exact hbehind _ (by simp [labels]) _ (hword name (hname name rfl))
  | write => exact hlabel "Write" (by simp [labels])
  | branch => exact hlabel "If" (by simp [labels])
  | loop => exact hlabel "Repeat" (by simp [labels])

end Heading

namespace Row

def name? (row : Row) : Option String :=
  row.2.name?

/-- The text of a row up to its line end. -/
def cells (row : Row) : List Char :=
  List.replicate (2 * row.1) ' ' ++ row.2.text.toList

theorem toList_line (row : Row) :
    row.entry.line.toList = row.cells ++ ['\n'] := by
  simp [entry, OutlineEntry.line, cells, Text.spaces]

theorem cells_injective : Function.Injective cells := by
  rintro ⟨depth, heading⟩ ⟨other, otherHeading⟩ hcells
  have hcut : ∀ (count : Nat) (heading : Heading),
      (List.replicate count ' ' ++ heading.text.toList).span (· == ' ') =
        (List.replicate count ' ', heading.text.toList) := by
    intro count heading
    obtain ⟨c, rest, htext, hc⟩ := heading.text_cons
    rw [List.span_eq_takeWhile_dropWhile,
      List.takeWhile_append_of_pos (by simp),
      List.dropWhile_append_of_pos (by simp), htext,
      List.takeWhile_cons_of_neg (by simpa using hc),
      List.dropWhile_cons_of_neg (by simpa using hc), List.append_nil]
  have hspan := congrArg (List.span (· == ' ')) hcells
  rw [cells, cells, hcut, hcut] at hspan
  obtain ⟨hblanks, htext⟩ := Prod.mk.inj hspan
  have hdepth := congrArg List.length hblanks
  simp only [List.length_replicate] at hdepth
  obtain rfl : depth = other := by omega
  rw [show heading = otherHeading from
    Heading.text_injective (String.toList_inj.mp htext)]

theorem cells_plain {row : Row} (hname : ∀ name ∈ row.name?, IsWord name) :
    '\n' ∉ row.cells ∧ '\r' ∉ row.cells := by
  have hplain : ∀ c, c = '\n' ∨ c = '\r' → c ∉ row.cells := by
    intro c hc
    have hblanks : c ∉ List.replicate (2 * row.1) ' ' := by
      rw [List.mem_replicate]
      rcases hc with rfl | rfl <;> simp
    rw [cells, List.mem_append, not_or]
    exact ⟨hblanks, Heading.not_mem_text hname hc⟩
  exact ⟨hplain _ (.inl rfl), hplain _ (.inr rfl)⟩

end Row

/-! ## Listings of programs -/

theorem Expr.names_rows (expr : Expr α) (depth : Nat) :
    (expr.rows depth).filterMap Row.name? = expr.names := by
  induction expr generalizing depth with
  | const note value => rfl
  | var note name => rfl
  | op note operator left right ihLeft ihRight =>
      simp [rows, names, ihLeft, ihRight, List.filterMap_cons, Row.name?,
        Heading.name?]

mutual

theorem Stmt.names_rows : ∀ (stmt : Stmt α) (depth : Nat),
    (stmt.rows depth).filterMap Row.name? = stmt.names
  | .read note name, depth => rfl
  | .assign note name value, depth => by
      simp [Stmt.rows, Stmt.names, Expr.names_rows, Row.name?, Heading.name?]
  | .write note value, depth => by
      simp [Stmt.rows, Stmt.names, Expr.names_rows, List.filterMap_cons,
        Row.name?, Heading.name?]
  | .ifThen note test thenPart, depth => by
      simp [Stmt.rows, Stmt.names, Expr.names_rows, Block.names_rows thenPart,
        List.filterMap_cons, Row.name?, Heading.name?]
  | .ifElse note test thenPart elsePart, depth => by
      simp [Stmt.rows, Stmt.names, Expr.names_rows, Block.names_rows thenPart,
        Block.names_rows elsePart, List.filterMap_cons, Row.name?,
        Heading.name?]
  | .repeatUntil note body test, depth => by
      simp [Stmt.rows, Stmt.names, Expr.names_rows, Block.names_rows body,
        List.filterMap_cons, Row.name?, Heading.name?]

theorem Block.names_rows : ∀ (block : Block α) (depth : Nat),
    (block.rows depth).filterMap Row.name? = block.names
  | .nil, depth => rfl
  | .cons first rest, depth => by
      simp [Block.rows, Block.names, Stmt.names_rows first,
        Block.names_rows rest]

end

namespace Block

def listing (block : Block α) : String :=
  String.join ((block.outline 0).map OutlineEntry.line)

variable {block : Block α} {other : Block β}

theorem lines_listing (hnames : ∀ name ∈ block.names, IsWord name) :
    Text.lines block.listing.toList = (block.rows 0).map Row.cells := by
  have hplain : ∀ cells ∈ (block.rows 0).map Row.cells,
      '\n' ∉ cells ∧ '\r' ∉ cells := by
    intro cells hcells
    obtain ⟨row, hrow, rfl⟩ := List.mem_map.mp hcells
    refine Row.cells_plain fun name hname => hnames name ?_
    rw [← block.names_rows 0]
    exact List.mem_filterMap.mpr ⟨row, hrow, hname⟩
  have htext : block.listing.toList =
      ((block.rows 0).map Row.cells).flatMap fun cells => cells ++ ['\n'] := by
    rw [listing, block.outline_eq, String.toList_join, List.map_map,
      List.flatMap_map, List.flatMap_map]
    exact congrArg (List.flatMap · _) (funext Row.toList_line)
  rw [htext, Text.lines_rows hplain]

/-- The rows of a program whose names are words can be read off its listing. -/
theorem listing_eq_iff (hblock : ∀ name ∈ block.names, IsWord name)
    (hother : ∀ name ∈ other.names, IsWord name) :
    block.listing = other.listing ↔ block.joined.bare = other.joined.bare := by
  rw [← block.rows_eq_iff other]
  constructor
  · intro hlisting
    have hcells : (block.rows 0).map Row.cells =
        (other.rows 0).map Row.cells := by
      rw [← lines_listing hblock, hlisting, lines_listing hother]
    exact List.map_injective_iff.mpr Row.cells_injective hcells
  · intro hrows
    rw [listing, listing, block.outline_eq, hrows, other.outline_eq]

end Block

/-! ## Nodes of programs -/

/-- What a node is, without its line and its type. -/
def Node.shape (node : Node) : Form × Option NodeId :=
  (node.form, node.sibling)

namespace Expr

theorem offset_bare (expr : Expr α) : expr.bare.offset = expr.offset := by
  unfold bare
  induction expr with
  | const note value => rfl
  | var note name => rfl
  | op note operator left right ihLeft ihRight =>
      rw [mapNote, offset, ihLeft, ihRight, offset]

theorem offset_eq {expr : Expr α} {other : Expr β}
    (hbare : expr.bare = other.bare) :
    expr.offset = other.offset := by
  rw [← offset_bare, hbare, offset_bare]

theorem form_eq {expr : Expr α} {other : Expr β}
    (hbare : expr.bare = other.bare) (start : NodeId) :
    expr.form start = other.form start := by
  cases expr with
  | const note value =>
      cases other <;> cases hbare
      rfl
  | var note name =>
      cases other <;> cases hbare
      rfl
  | op note operator left right =>
      cases other with
      | op otherNote otherOperator otherLeft otherRight =>
          obtain ⟨-, rfl, hleft, hright⟩ := Expr.op.inj hbare
          rw [form, form, offset_eq hleft, offset_eq hright]
      | _ => cases hbare

theorem shapes_eq {expr other : Expr Nat} (hbare : expr.bare = other.bare)
    (start : NodeId) :
    (expr.nodes start).map Node.shape = (other.nodes start).map Node.shape := by
  induction expr generalizing other start with
  | const note value =>
      cases other <;> cases hbare
      rfl
  | var note name =>
      cases other <;> cases hbare
      rfl
  | op note operator left right ihLeft ihRight =>
      cases other with
      | op otherNote otherOperator otherLeft otherRight =>
          have hform := form_eq hbare start
          obtain ⟨-, rfl, hleft, hright⟩ := Expr.op.inj hbare
          rw [nodes_op, nodes_op, offset_eq hleft, hform]
          simp only [List.map_append, ihLeft hleft, ihRight hright]
          rfl
      | _ => cases hbare

end Expr

namespace Grammar

structure Statement.Alike (statement other : Statement) : Prop where
  offset : statement.offset = other.offset
  form : ∀ start, statement.form start = other.form start
  shapes : ∀ start,
    (statement.partNodes start).map Node.shape =
    (other.partNodes start).map Node.shape

structure Sequence.Alike (sequence other : Sequence) : Prop where
  count : sequence.count = other.count
  head : ∀ start, sequence.head start = other.head start
  shapes : ∀ start,
    (sequence.nodes start).map Node.shape = (other.nodes start).map Node.shape

structure Statements.Alike (statements other : Statements) : Prop where
  count : statements.count = other.count
  head? : ∀ start, statements.head? start = other.head? start
  shapes : ∀ start,
    (statements.nodes start).map Node.shape = (other.nodes start).map Node.shape

/-- A statement and those behind it have their nodes in the same places. -/
theorem Statement.Alike.shapes_behind {statement other : Statement}
    {rest others : Statements} (halike : statement.Alike other)
    (hrest : rest.Alike others) (start : NodeId) :
    (statement.partNodes start ++
        statement.node start (rest.head? (start + statement.offset + 1)) ::
          rest.nodes (start + statement.offset + 1)).map Node.shape =
      (other.partNodes start ++
        other.node start (others.head? (start + other.offset + 1)) ::
          others.nodes (start + other.offset + 1)).map Node.shape := by
  simp only [List.map_append, List.map_cons, Node.shape, Statement.node,
    halike.offset, halike.form, hrest.head?]
  exact congrArg₂ (· ++ ·) (halike.shapes start)
    (congrArg (List.cons _) (hrest.shapes _))

section Alike

variable {ifWord otherIf : Terminal [.ifWord]}
  {thenWord otherThenWord : Terminal [.thenWord]}
  {endWord otherEnd : Terminal [.endWord]}
  {test otherTest value otherValue : Exp} {thenPart otherThen : Sequence}

theorem Statement.alike_ifThen (htest : test.expr.bare = otherTest.expr.bare)
    (hthen : thenPart.Alike otherThen) :
    (Statement.ifThen ifWord test thenWord thenPart endWord).Alike
      (.ifThen otherIf otherTest otherThenWord otherThen otherEnd) where
  offset := by
    rw [Statement.offset, Statement.offset, Expr.offset_eq htest, hthen.count]
  form := fun start => by
    rw [Statement.form, Statement.form, Expr.offset_eq htest, hthen.head]
  shapes := fun start => by
    rw [Statement.partNodes, Statement.partNodes, List.map_append,
      List.map_append, Expr.shapes_eq htest, Expr.offset_eq htest,
      hthen.shapes]

theorem Statement.alike_ifElse {elseWord otherElseWord : Terminal [.elseWord]}
    {elsePart otherElse : Sequence}
    (htest : test.expr.bare = otherTest.expr.bare)
    (hthen : thenPart.Alike otherThen) (helse : elsePart.Alike otherElse) :
    (Statement.ifElse ifWord test thenWord thenPart elseWord elsePart
        endWord).Alike
      (.ifElse otherIf otherTest otherThenWord otherThen otherElseWord
        otherElse otherEnd) where
  offset := by
    rw [Statement.offset, Statement.offset, Expr.offset_eq htest, hthen.count,
      helse.count]
  form := fun start => by
    rw [Statement.form, Statement.form, Expr.offset_eq htest, hthen.head,
      hthen.count, helse.head]
  shapes := fun start => by
    rw [Statement.partNodes, Statement.partNodes, List.map_append,
      List.map_append, List.map_append, List.map_append, Expr.shapes_eq htest,
      Expr.offset_eq htest, hthen.count, hthen.shapes, helse.shapes]

theorem Statement.alike_repeatUntil
    {repeatWord otherRepeat : Terminal [.repeatWord]}
    {untilWord otherUntil : Terminal [.untilWord]} {body otherBody : Sequence}
    (hbody : body.Alike otherBody)
    (htest : test.expr.bare = otherTest.expr.bare) :
    (Statement.repeatUntil repeatWord body untilWord test).Alike
      (.repeatUntil otherRepeat otherBody otherUntil otherTest) where
  offset := by
    rw [Statement.offset, Statement.offset, Expr.offset_eq htest, hbody.count]
  form := fun start => by
    rw [Statement.form, Statement.form, Expr.offset_eq htest, hbody.count,
      hbody.head]
  shapes := fun start => by
    rw [Statement.partNodes, Statement.partNodes, List.map_append,
      List.map_append, Expr.shapes_eq htest, hbody.count, hbody.shapes]

theorem Statement.alike_assign {target otherTarget : Terminal [.identifier]}
    {sign otherSign : Terminal [.assignment]}
    (hname : target.token.text = otherTarget.token.text)
    (hvalue : value.expr.bare = otherValue.expr.bare) :
    (Statement.assign target sign value).Alike
      (.assign otherTarget otherSign otherValue) where
  offset := by
    rw [Statement.offset, Statement.offset, Expr.offset_eq hvalue]
  form := fun start => by
    rw [Statement.form, Statement.form, Expr.offset_eq hvalue, hname]
  shapes := fun start => by
    rw [Statement.partNodes, Statement.partNodes, Expr.shapes_eq hvalue]

theorem Statement.alike_write {writeWord otherWord : Terminal [.writeWord]}
    (hvalue : value.expr.bare = otherValue.expr.bare) :
    (Statement.write writeWord value).Alike (.write otherWord otherValue) where
  offset := by
    rw [Statement.offset, Statement.offset, Expr.offset_eq hvalue]
  form := fun start => by
    rw [Statement.form, Statement.form, Expr.offset_eq hvalue]
  shapes := fun start => by
    rw [Statement.partNodes, Statement.partNodes, Expr.shapes_eq hvalue]

end Alike

mutual

theorem Statement.alike_of_bare : ∀ statement other : Statement,
    statement.stmt.bare = other.stmt.bare → statement.Alike other
  | .ifThen _ test _ thenPart _, other, hbare => by
      cases other with
      | ifThen _ otherTest _ otherThen _ =>
          obtain ⟨-, htest, hthen⟩ := Stmt.ifThen.inj hbare
          exact Statement.alike_ifThen htest
            (thenPart.alike_of_bare otherThen hthen)
      | _ => cases hbare
  | .ifElse _ test _ thenPart _ elsePart _, other, hbare => by
      cases other with
      | ifElse _ otherTest _ otherThen _ otherElse _ =>
          obtain ⟨-, htest, hthen, helse⟩ := Stmt.ifElse.inj hbare
          exact Statement.alike_ifElse htest
            (thenPart.alike_of_bare otherThen hthen)
            (elsePart.alike_of_bare otherElse helse)
      | _ => cases hbare
  | .repeatUntil _ body _ test, other, hbare => by
      cases other with
      | repeatUntil _ otherBody _ otherTest =>
          obtain ⟨-, hbody, htest⟩ := Stmt.repeatUntil.inj hbare
          exact Statement.alike_repeatUntil
            (body.alike_of_bare otherBody hbody) htest
      | _ => cases hbare
  | .assign target _ value, other, hbare => by
      cases other with
      | assign otherTarget _ otherValue =>
          obtain ⟨-, hname, hvalue⟩ := Stmt.assign.inj hbare
          exact Statement.alike_assign hname hvalue
      | _ => cases hbare
  | .read _ target, other, hbare => by
      cases other with
      | read _ otherTarget =>
          obtain ⟨-, hname⟩ := Stmt.read.inj hbare
          exact ⟨rfl, fun start => congrArg Form.read hname, fun start => rfl⟩
      | _ => cases hbare
  | .write _ value, other, hbare => by
      cases other with
      | write _ otherValue =>
          obtain ⟨-, hvalue⟩ := Stmt.write.inj hbare
          exact Statement.alike_write hvalue
      | _ => cases hbare

theorem Sequence.alike_of_bare : ∀ sequence other : Sequence,
    sequence.block.bare = other.block.bare → sequence.Alike other
  | .mk first rest, .mk otherFirst otherRest, hbare => by
      obtain ⟨hfirst, hrest⟩ := Block.cons.inj hbare
      have hstatement := first.alike_of_bare otherFirst hfirst
      have hstatements := rest.alike_of_bare otherRest hrest
      exact
        { count := by
            rw [Sequence.count, Sequence.count, hstatement.offset,
              hstatements.count]
          head := fun start => by
            rw [Sequence.head, Sequence.head, hstatement.offset]
          shapes := hstatement.shapes_behind hstatements }

theorem Statements.alike_of_bare : ∀ statements other : Statements,
    statements.block.bare = other.block.bare → statements.Alike other
  | .nil, .nil, _ => ⟨rfl, fun _ => rfl, fun _ => rfl⟩
  | .cons _ next rest, .cons _ otherNext otherRest, hbare => by
      obtain ⟨hnext, hrest⟩ := Block.cons.inj hbare
      have hstatement := next.alike_of_bare otherNext hnext
      have hstatements := rest.alike_of_bare otherRest hrest
      exact
        { count := by
            rw [Statements.count, Statements.count, hstatement.offset,
              hstatements.count]
          head? := fun start => by
            rw [Statements.head?, Statements.head?, hstatement.offset]
          shapes := hstatement.shapes_behind hstatements }

end

theorem Sequence.Alike.renamed {sequence other : Sequence}
    (halike : sequence.Alike other) :
    Tree.Renamed id sequence.tree other.tree where
  root := congrArg some (halike.head 0).symm
  size := by rw [sequence.size_tree, other.size_tree, halike.count]
  nodes := by
    intro id node hnode
    have hplace : ∀ given : Sequence,
        given.tree.get? id = (given.nodes 0)[id]? := by
      intro given
      simp [Sequence.tree, Tree.get?]
    have hshapes := congrArg (·[id]?) (halike.shapes 0)
    simp only [List.getElem?_map, ← hplace, hnode, Option.map_some] at hshapes
    obtain ⟨same, hsame, hshape⟩ := Option.map_eq_some_iff.mp hshapes.symm
    obtain ⟨hform, hsibling⟩ := Prod.mk.inj hshape
    exact ⟨same, hsame, by rw [hform, Form.mapName_id], hsibling⟩

end Grammar

/-! ## Parsed trees -/

section Parsed

variable {source : String} {place : Option String} {tokens : List Token}
  {file : String} {tree : Tree} {program : Block Mark}

theorem Tree.listing_eq (hprogram : tree.program = .ok program) :
    tree.listing = .ok program.listing := by
  rw [Tree.listing, hprogram]
  rfl

theorem Parser.program_words
    (htokens : Scanner.tokenize source place = .ok tokens)
    (hparse : parse tokens file = .ok tree)
    (hprogram : tree.program = .ok program) :
    ∀ name ∈ program.names, IsWord name := by
  intro name hname
  obtain ⟨token, htoken, rfl⟩ :=
    List.mem_map.mp (names_subset hparse hprogram hname)
  obtain ⟨hmem, hkind⟩ := List.mem_filter.mp htoken
  exact Scanner.word_of_identifier htokens hmem (of_decide_eq_true hkind)

/-- The listings of two parsed texts are the same if and only if the programs
are the same, lines and types left aside, when the parts of every `if` are
joined into one.  If neither has an `else`, that is when the trees have the same
nodes with the same links. -/
theorem listing_shows_joined_program {otherSource otherFile : String}
    {otherPlace : Option String} {others : List Token} {other : Tree}
    (htokens : Scanner.tokenize source place = .ok tokens)
    (hparse : Parser.parse tokens file = .ok tree)
    (hothers : Scanner.tokenize otherSource otherPlace = .ok others)
    (hother : Parser.parse others otherFile = .ok other) :
    ∃ listing otherListing program otherProgram,
      tree.listing = .ok listing ∧ other.listing = .ok otherListing ∧
      tree.program = .ok program ∧ other.program = .ok otherProgram ∧
      (listing = otherListing ↔
        program.joined.bare = otherProgram.joined.bare) ∧
      (program.ElseFree → otherProgram.ElseFree →
        (listing = otherListing ↔ Tree.Renamed id tree other)) := by
  obtain ⟨sequence, -, -, rfl⟩ := Parser.derivation_of_parse hparse
  obtain ⟨otherSequence, -, -, rfl⟩ := Parser.derivation_of_parse hother
  obtain ⟨program, hprogram, hlines⟩ := sequence.program_tree
  obtain ⟨otherProgram, hotherProgram, hotherLines⟩ :=
    otherSequence.program_tree
  have hlisting : program.listing = otherProgram.listing ↔
      program.joined.bare = otherProgram.joined.bare :=
    Block.listing_eq_iff (Parser.program_words htokens hparse hprogram)
      (Parser.program_words hothers hother hotherProgram)
  refine ⟨program.listing, otherProgram.listing, program, otherProgram,
    Tree.listing_eq hprogram, Tree.listing_eq hotherProgram, hprogram,
    hotherProgram, hlisting, fun hfree hotherFree => ?_⟩
  rw [hlisting, program.joined_of_elseFree hfree,
    otherProgram.joined_of_elseFree hotherFree]
  constructor
  · intro hbare
    refine (sequence.alike_of_bare otherSequence ?_).renamed
    rw [← hlines, ← hotherLines, Block.bare_mapNote, Block.bare_mapNote, hbare]
  · intro hrenamed
    have hsame :=
      Except.ok.inj (hotherProgram.symm.trans (hrenamed.program hprogram))
    rw [hsame, Block.mapName_id, Block.bare_mapNote]

def joinedReads : String :=
  "if x < 1 then read a; read b end"

def partedReads : String :=
  "if x < 1 then read a else read b end"

/-- The tokens of two reads in a branch, with the token that stands between
them. -/
def readsTokens (between : Token) : List Token :=
  [⟨.ifWord, "if", 1⟩, ⟨.identifier, "x", 1⟩, ⟨.less, "<", 1⟩,
    ⟨.number, "1", 1⟩, ⟨.thenWord, "then", 1⟩, ⟨.readWord, "read", 1⟩,
    ⟨.identifier, "a", 1⟩, between,
    ⟨.readWord, "read", 1⟩, ⟨.identifier, "b", 1⟩, ⟨.endWord, "end", 1⟩,
      Token.endOfInput 1]

/-- The tree of two reads in a branch, with the parts of the branch and the link
between the reads. -/
def readsTree (elsePart behind : Option NodeId) : Tree where
  nodes := #[⟨.var "x", 1, none, .void⟩, ⟨.const 1, 1, none, .void⟩,
    ⟨.op .less 0 1, 1, none, .void⟩, ⟨.read "a", 1, behind, .void⟩,
    ⟨.read "b", 1, none, .void⟩, ⟨.ifElse 2 3 elsePart, 1, none, .void⟩]
  root := some 5

/-- One `if` with two statements in its then part, and with one in each part. -/
theorem boundary_not_listed :
    ∃ tokens others tree other,
      Scanner.tokenize joinedReads none = .ok tokens ∧
      Scanner.tokenize partedReads none = .ok others ∧
      Parser.parse tokens "joined" = .ok tree ∧
        Parser.parse others "parted" = .ok other ∧
      tree.listing = other.listing ∧ ¬ Tree.Renamed id tree other := by
  have htokens : Scanner.tokenize joinedReads none =
      .ok (readsTokens ⟨.semicolon, ";", 1⟩) := by decide +kernel
  have hothers : Scanner.tokenize partedReads none =
      .ok (readsTokens ⟨.elseWord, "else", 1⟩) := by decide +kernel
  have hparse : Parser.parse (readsTokens ⟨.semicolon, ";", 1⟩) "joined" =
      .ok (readsTree none (some 4)) := by decide +kernel
  have hother : Parser.parse (readsTokens ⟨.elseWord, "else", 1⟩) "parted" =
      .ok (readsTree (some 4) none) := by decide +kernel
  obtain ⟨listing, otherListing, program, otherProgram, hlisting,
    hotherListing, hprogram, hotherProgram, hsame,
    -⟩ := listing_shows_joined_program htokens hparse hothers hother
  have hjoined : program.joined.bare = otherProgram.joined.bare := by
    cases hprogram
    cases hotherProgram
    rfl
  refine ⟨_, _, _, _, htokens, hothers, hparse, hother, ?_, ?_⟩
  · rw [hlisting, hotherListing, hsame.mpr hjoined]
  · intro hrenamed
    obtain ⟨same, hsame, hform, -⟩ := hrenamed.nodes 5 _ rfl
    cases hsame
    cases hform

end Parsed

end TinyCompiler
