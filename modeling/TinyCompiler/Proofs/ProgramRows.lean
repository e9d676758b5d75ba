import Mathlib.Logic.Basic
import TinyCompiler.Proofs.PhraseNotes
import TinyCompiler.Tree.Listing

/-!
# Rows of a program

A program is listed in rows, one for each phrase, in the depth of the phrase.
Nothing marks where the parts of a phrase end.  All the same the program can be
read off its rows, up to one thing: the row of an expression tells how many
operands there are, and a sequence ends before a row that stands further out or
is of an expression.  Only where the then part of an `if` ends and the else part
starts is lost.
-/

namespace TinyCompiler

/-! ## Joined branches -/

/-- The phrase alone, without what is noted at it. -/
def Expr.bare (expr : Expr α) : Expr Unit :=
  expr.mapNote fun _ => ()

def Stmt.bare (stmt : Stmt α) : Stmt Unit :=
  stmt.mapNote fun _ => ()

def Block.bare (block : Block α) : Block Unit :=
  block.mapNote fun _ => ()

theorem Expr.bare_mapNote (change : α → β) (expr : Expr α) :
    (expr.mapNote change).bare = expr.bare := by
  unfold bare
  induction expr with
  | const note value => rfl
  | var note name => rfl
  | op note operator left right ihLeft ihRight =>
      rw [mapNote, mapNote, ihLeft, ihRight, mapNote]

mutual

theorem Stmt.bare_mapNote (change : α → β) :
    ∀ stmt : Stmt α, (stmt.mapNote change).bare = stmt.bare
  | .read _ _ => rfl
  | .assign _ name value =>
      congrArg (Stmt.assign () name) (value.bare_mapNote change)
  | .write _ value => congrArg (Stmt.write ()) (value.bare_mapNote change)
  | .ifThen _ test thenPart =>
      congrArg₂ (Stmt.ifThen ()) (test.bare_mapNote change)
        (Block.bare_mapNote change thenPart)
  | .ifElse _ test thenPart elsePart =>
      congr (congrArg₂ (Stmt.ifElse ()) (test.bare_mapNote change)
        (Block.bare_mapNote change thenPart))
          (Block.bare_mapNote change elsePart)
  | .repeatUntil _ body test =>
      congrArg₂ (Stmt.repeatUntil ()) (Block.bare_mapNote change body)
        (test.bare_mapNote change)

theorem Block.bare_mapNote (change : α → β) :
    ∀ block : Block α, (block.mapNote change).bare = block.bare
  | .nil => rfl
  | .cons first rest =>
      congrArg₂ Block.cons (Stmt.bare_mapNote change first)
        (Block.bare_mapNote change rest)

end

def Block.append : Block α → Block α → Block α
  | .nil, behind => behind
  | .cons first rest, behind => .cons first (rest.append behind)

mutual

/-- The statement with both parts of every `if` in it joined into one. -/
def Stmt.joined : Stmt α → Stmt α
  | .ifThen note test thenPart => .ifThen note test thenPart.joined
  | .ifElse note test thenPart elsePart =>
      .ifThen note test (thenPart.joined.append elsePart.joined)
  | .repeatUntil note body test => .repeatUntil note body.joined test
  | .read note name => .read note name
  | .assign note name value => .assign note name value
  | .write note value => .write note value

def Block.joined : Block α → Block α
  | .nil => .nil
  | .cons first rest => .cons first.joined rest.joined

end

mutual

def Stmt.ElseFree : Stmt α → Prop
  | .ifElse _ _ _ _ => False
  | .ifThen _ _ thenPart => thenPart.ElseFree
  | .repeatUntil _ body _ => body.ElseFree
  | .read _ _ | .assign _ _ _ | .write _ _ => True

def Block.ElseFree : Block α → Prop
  | .nil => True
  | .cons first rest => first.ElseFree ∧ rest.ElseFree

end

theorem Block.elseFree_append {block behind : Block α} (hblock : block.ElseFree)
    (hbehind : behind.ElseFree) : (block.append behind).ElseFree :=
  match block, hblock with
  | .nil, _ => hbehind
  | .cons _ _, hblock => ⟨hblock.1, elseFree_append hblock.2 hbehind⟩

mutual

theorem Stmt.elseFree_joined : ∀ stmt : Stmt α, stmt.joined.ElseFree
  | .read _ _ => trivial
  | .assign _ _ _ => trivial
  | .write _ _ => trivial
  | .ifThen _ _ thenPart => Block.elseFree_joined thenPart
  | .ifElse _ _ thenPart elsePart =>
      Block.elseFree_append (Block.elseFree_joined thenPart)
        (Block.elseFree_joined elsePart)
  | .repeatUntil _ body _ => Block.elseFree_joined body

theorem Block.elseFree_joined : ∀ block : Block α, block.joined.ElseFree
  | .nil => trivial
  | .cons first rest => ⟨Stmt.elseFree_joined first, Block.elseFree_joined rest⟩

end

mutual

theorem Stmt.joined_of_elseFree :
    ∀ stmt : Stmt α, stmt.ElseFree → stmt.joined = stmt
  | .read note name, _ => rfl
  | .assign note name value, _ => rfl
  | .write note value, _ => rfl
  | .ifThen note test thenPart, hfree => by
      rw [Stmt.joined, Block.joined_of_elseFree thenPart hfree]
  | .repeatUntil note body test, hfree => by
      rw [Stmt.joined, Block.joined_of_elseFree body hfree]

theorem Block.joined_of_elseFree :
    ∀ block : Block α, block.ElseFree → block.joined = block
  | .nil, _ => rfl
  | .cons first rest, hfree => by
      rw [Block.joined, Stmt.joined_of_elseFree first hfree.1,
        Block.joined_of_elseFree rest hfree.2]

end

/-! ## Headings -/

/-- What the row of a phrase says of it. -/
inductive Heading where
  | const (value : Int32)
  | var (name : String)
  | op (operator : Operator)
  | read (name : String)
  | assign (name : String)
  | write
  | branch
  | loop
  deriving DecidableEq, Repr

namespace Heading

def text : Heading → String
  | .const value => "Const: " ++ Text.writeInt32 value
  | .var name => "Id: " ++ name
  | .op operator => "Op: " ++ operator.symbol
  | .read name => "Read: " ++ name
  | .assign name => "Assign to: " ++ name
  | .write => "Write"
  | .branch => "If"
  | .loop => "Repeat"

def OfStatement : Heading → Prop
  | .const _ | .var _ | .op _ => False
  | .read _ | .assign _ | .write | .branch | .loop => True

end Heading

/-- The depth of a row and what it says. -/
abbrev Row := Nat × Heading

def Expr.rows (depth : Nat) : Expr α → List Row
  | .const _ value => [(depth, .const value)]
  | .var _ name => [(depth, .var name)]
  | .op _ operator left right =>
      (depth, .op operator) :: (left.rows (depth + 1) ++ right.rows (depth + 1))

mutual

def Stmt.rows (depth : Nat) : Stmt α → List Row
  | .read _ name => [(depth, .read name)]
  | .assign _ name value => (depth, .assign name) :: value.rows (depth + 1)
  | .write _ value => (depth, .write) :: value.rows (depth + 1)
  | .ifThen _ test thenPart =>
      (depth, .branch) :: (test.rows (depth + 1) ++ thenPart.rows (depth + 1))
  | .ifElse _ test thenPart elsePart =>
      (depth, .branch) ::
        (test.rows (depth + 1) ++ thenPart.rows (depth + 1) ++
          elsePart.rows (depth + 1))
  | .repeatUntil _ body test =>
      (depth, .loop) :: (body.rows (depth + 1) ++ test.rows (depth + 1))

def Block.rows (depth : Nat) : Block α → List Row
  | .nil => []
  | .cons first rest => first.rows depth ++ rest.rows depth

end

def Row.entry (row : Row) : OutlineEntry :=
  (row.1, row.2.text)

theorem Expr.outline_eq (expr : Expr α) (depth : Nat) :
    expr.outline depth = (expr.rows depth).map Row.entry := by
  induction expr generalizing depth with
  | const note value => rfl
  | var note name => rfl
  | op note operator left right ihLeft ihRight =>
      simp [outline, rows, ihLeft, ihRight, Row.entry, Heading.text]

mutual

theorem Stmt.outline_eq : ∀ (stmt : Stmt α) (depth : Nat),
    stmt.outline depth = (stmt.rows depth).map Row.entry
  | .read note name, depth => rfl
  | .assign note name value, depth => by
      simp [Stmt.outline, Stmt.rows, Expr.outline_eq, Row.entry, Heading.text]
  | .write note value, depth => by
      simp [Stmt.outline, Stmt.rows, Expr.outline_eq, Row.entry, Heading.text]
  | .ifThen note test thenPart, depth => by
      simp [Stmt.outline, Stmt.rows, Expr.outline_eq,
        Block.outline_eq thenPart, Row.entry, Heading.text]
  | .ifElse note test thenPart elsePart, depth => by
      simp [Stmt.outline, Stmt.rows, Expr.outline_eq, Block.outline_eq thenPart,
        Block.outline_eq elsePart, Row.entry, Heading.text]
  | .repeatUntil note body test, depth => by
      simp [Stmt.outline, Stmt.rows, Expr.outline_eq,
        Block.outline_eq body, Row.entry, Heading.text]

theorem Block.outline_eq : ∀ (block : Block α) (depth : Nat),
    block.outline depth = (block.rows depth).map Row.entry
  | .nil, depth => rfl
  | .cons first rest, depth => by
      simp [Block.outline, Block.rows, Stmt.outline_eq first,
        Block.outline_eq rest]

end

theorem Block.rows_append (block behind : Block α) (depth : Nat) :
    (block.append behind).rows depth = block.rows depth ++ behind.rows depth :=
  match block with
  | .nil => rfl
  | .cons first rest => by
      rw [append, rows, rows, rows_append rest, List.append_assoc]

mutual

/-- The boundary between the parts of an `if` does not show. -/
theorem Stmt.rows_joined : ∀ (stmt : Stmt α) (depth : Nat),
    stmt.joined.rows depth = stmt.rows depth
  | .read note name, depth => rfl
  | .assign note name value, depth => rfl
  | .write note value, depth => rfl
  | .ifThen note test thenPart, depth => by
      rw [Stmt.joined, Stmt.rows, Block.rows_joined thenPart, Stmt.rows]
  | .ifElse note test thenPart elsePart, depth => by
      rw [Stmt.joined, Stmt.rows, Block.rows_append, Block.rows_joined thenPart,
        Block.rows_joined elsePart, Stmt.rows, List.append_assoc]
  | .repeatUntil note body test, depth => by
      rw [Stmt.joined, Stmt.rows, Block.rows_joined body, Stmt.rows]

theorem Block.rows_joined : ∀ (block : Block α) (depth : Nat),
    block.joined.rows depth = block.rows depth
  | .nil, depth => rfl
  | .cons first rest, depth => by
      rw [Block.joined, Block.rows, Stmt.rows_joined first,
        Block.rows_joined rest, Block.rows]

end

theorem Expr.rows_bare (expr : Expr α) (depth : Nat) :
    expr.bare.rows depth = expr.rows depth := by
  unfold bare
  induction expr generalizing depth with
  | const note value => rfl
  | var note name => rfl
  | op note operator left right ihLeft ihRight =>
      rw [mapNote, rows, ihLeft, ihRight, rows]

mutual

theorem Stmt.rows_bare :
    ∀ (stmt : Stmt α) (depth : Nat), stmt.bare.rows depth = stmt.rows depth
  | .read _ _, _ => rfl
  | .assign _ _ value, _ => congrArg (List.cons _) (value.rows_bare _)
  | .write _ value, _ => congrArg (List.cons _) (value.rows_bare _)
  | .ifThen _ test thenPart, _ =>
      congrArg (List.cons _)
        (congrArg₂ (· ++ ·) (test.rows_bare _) (Block.rows_bare thenPart _))
  | .ifElse _ test thenPart elsePart, _ =>
      congrArg (List.cons _) (congrArg₂ (· ++ ·)
        (congrArg₂ (· ++ ·) (test.rows_bare _) (Block.rows_bare thenPart _))
        (Block.rows_bare elsePart _))
  | .repeatUntil _ body test, _ =>
      congrArg (List.cons _)
        (congrArg₂ (· ++ ·) (Block.rows_bare body _) (test.rows_bare _))

theorem Block.rows_bare : ∀ (block : Block α) (depth : Nat),
    block.bare.rows depth = block.rows depth
  | .nil, _ => rfl
  | .cons first rest, depth =>
      congrArg₂ (· ++ ·) (Stmt.rows_bare first depth)
        (Block.rows_bare rest depth)

end

/-! ## Reading rows -/

/-- The rows go on with none of a statement as deep or deeper. -/
def EndsBefore (depth : Nat) (rows : List Row) : Prop :=
  ∀ row ∈ rows.head?, row.2.OfStatement → row.1 < depth

section Reading

variable {α β : Type} {depth : Nat} {rest others : List Row}

theorem Expr.rows_cons (expr : Expr α) (depth : Nat) :
    ∃ heading behind,
      expr.rows depth = (depth, heading) :: behind ∧ ¬ heading.OfStatement := by
  cases expr with
  | const note value => exact ⟨_, _, rfl, id⟩
  | var note name => exact ⟨_, _, rfl, id⟩
  | op note operator left right => exact ⟨_, _, rfl, id⟩

theorem Stmt.rows_cons (stmt : Stmt α) (depth : Nat) :
    ∃ heading behind,
      stmt.rows depth = (depth, heading) :: behind ∧ heading.OfStatement := by
  cases stmt <;> exact ⟨_, _, rfl, trivial⟩

theorem EndsBefore.mono (hbefore : EndsBefore depth rest) :
    EndsBefore (depth + 1) rest :=
  fun row hrow hstatement => Nat.lt_succ_of_lt (hbefore row hrow hstatement)

theorem endsBefore_expr (expr : Expr α) (depth deep : Nat) (rest : List Row) :
    EndsBefore depth (expr.rows deep ++ rest) := by
  obtain ⟨heading, behind, hrows, hheading⟩ := expr.rows_cons deep
  rw [hrows]
  rintro row ⟨⟩ hstatement
  exact absurd hstatement hheading

theorem endsBefore_block (block : Block α) (hbefore : EndsBefore depth rest) :
    EndsBefore (depth + 1) (block.rows depth ++ rest) := by
  cases block with
  | nil => exact hbefore.mono
  | cons first behind =>
      obtain ⟨heading, inner, hrows, -⟩ := first.rows_cons depth
      rw [Block.rows, hrows]
      rintro row ⟨⟩ -
      exact Nat.lt_succ_self depth

theorem not_endsBefore_stmt (stmt : Stmt α) (rest : List Row) :
    ¬ EndsBefore depth (stmt.rows depth ++ rest) := by
  obtain ⟨heading, behind, hrows, hheading⟩ := stmt.rows_cons depth
  rw [hrows]
  exact fun hbefore =>
    absurd (hbefore (depth, heading) rfl hheading) (Nat.lt_irrefl depth)

/-- The rows of an expression tell where they end. -/
theorem Expr.rows_append_inj (expr : Expr α) (other : Expr β)
    (hrows : expr.rows depth ++ rest = other.rows depth ++ others) :
    expr.bare = other.bare ∧ rest = others := by
  induction expr generalizing other depth rest others with
  | const note value =>
      cases other with
      | const otherNote otherValue =>
          obtain ⟨hhead, hrest⟩ := List.cons.inj hrows
          cases hhead
          exact ⟨rfl, hrest⟩
      | _ => simp [rows] at hrows
  | var note name =>
      cases other with
      | var otherNote otherName =>
          obtain ⟨hhead, hrest⟩ := List.cons.inj hrows
          cases hhead
          exact ⟨rfl, hrest⟩
      | _ => simp [rows] at hrows
  | op note operator left right ihLeft ihRight =>
      cases other with
      | op otherNote otherOperator otherLeft otherRight =>
          obtain ⟨hhead, hparts⟩ := List.cons.inj hrows
          cases hhead
          simp only [List.append_eq, List.append_assoc] at hparts
          obtain ⟨hleft, hbehind⟩ := ihLeft otherLeft hparts
          obtain ⟨hright, hrest⟩ := ihRight otherRight hbehind
          exact ⟨congrArg₂ (Expr.op () operator) hleft hright, hrest⟩
      | _ => simp [rows] at hrows

mutual

theorem Stmt.rows_append_inj : ∀ (stmt : Stmt α) (other : Stmt β) {depth : Nat}
    {rest others : List Row}, stmt.ElseFree → other.ElseFree → EndsBefore
    (depth + 1) rest →
      EndsBefore (depth + 1) others →
        stmt.rows depth ++ rest = other.rows depth ++ others →
        stmt.bare = other.bare ∧ rest = others
  | .read note name, other, depth, rest, others, _, _, _, _, hrows => by
      cases other with
      | read otherNote otherName =>
          obtain ⟨hhead, hrest⟩ := List.cons.inj hrows
          cases hhead
          exact ⟨rfl, hrest⟩
      | _ => simp [Stmt.rows] at hrows
  | .assign note name value, other, depth, rest, others, _, _, _, _, hrows => by
      cases other with
      | assign otherNote otherName otherValue =>
          obtain ⟨hhead, hparts⟩ := List.cons.inj hrows
          cases hhead
          obtain ⟨hvalue, hrest⟩ := value.rows_append_inj otherValue hparts
          exact ⟨congrArg (Stmt.assign () name) hvalue, hrest⟩
      | _ => simp [Stmt.rows] at hrows
  | .write note value, other, depth, rest, others, _, _, _, _, hrows => by
      cases other with
      | write otherNote otherValue =>
          obtain ⟨hvalue, hrest⟩ :=
            value.rows_append_inj otherValue (List.cons.inj hrows).2
          exact ⟨congrArg (Stmt.write ()) hvalue, hrest⟩
      | _ => simp [Stmt.rows] at hrows
  | .ifThen note test thenPart, other, depth, rest, others, hfree, hother,
      hbefore, hends, hrows => by
      cases other with
      | ifThen otherNote otherTest otherPart =>
          have hparts := (List.cons.inj hrows).2
          simp only [List.append_eq, List.append_assoc] at hparts
          obtain ⟨htest, hbehind⟩ := test.rows_append_inj otherTest hparts
          obtain ⟨hthen, hrest⟩ :=
            Block.rows_append_inj thenPart otherPart hfree hother
              hbefore hends hbehind
          exact ⟨congrArg₂ (Stmt.ifThen ()) htest hthen, hrest⟩
      | ifElse otherNote otherTest otherThen otherElse => exact hother.elim
      | _ => simp [Stmt.rows] at hrows
  | .repeatUntil note body test, other, depth, rest, others, hfree, hother, _,
      _, hrows => by
      cases other with
      | repeatUntil otherNote otherBody otherTest =>
          have hparts := (List.cons.inj hrows).2
          simp only [List.append_eq, List.append_assoc] at hparts
          obtain ⟨hbody, hbehind⟩ :=
            Block.rows_append_inj body otherBody hfree hother
            (endsBefore_expr test _ _ rest)
              (endsBefore_expr otherTest _ _ others) hparts
          obtain ⟨htest, hrest⟩ := test.rows_append_inj otherTest hbehind
          exact ⟨congrArg₂ (Stmt.repeatUntil ()) hbody htest, hrest⟩
      | _ => simp [Stmt.rows] at hrows

/-- The rows of a sequence end where no row of a statement of it follows. -/
theorem Block.rows_append_inj :
    ∀ (block : Block α) (other : Block β) {depth : Nat}
    {rest others : List Row},
      block.ElseFree → other.ElseFree → EndsBefore depth rest →
      EndsBefore depth others → block.rows depth ++ rest =
        other.rows depth ++ others →
        block.bare = other.bare ∧ rest = others
  | .nil, other, depth, rest, others, _, _, hbefore, _, hrows => by
      cases other with
      | nil => exact ⟨rfl, hrows⟩
      | cons first behind =>
          rw [Block.rows, List.nil_append, Block.rows,
            List.append_assoc] at hrows
          rw [hrows] at hbefore
          exact absurd hbefore (not_endsBefore_stmt first _)
  | .cons first behind, other, depth, rest, others, hfree, hother, hbefore,
      hends, hrows => by
      cases other with
      | nil =>
          rw [Block.rows, Block.rows, List.nil_append,
            List.append_assoc] at hrows
          rw [← hrows] at hends
          exact absurd hends (not_endsBefore_stmt first _)
      | cons otherFirst otherBehind =>
          rw [Block.rows, Block.rows, List.append_assoc,
            List.append_assoc] at hrows
          obtain ⟨hfirst, htail⟩ :=
            Stmt.rows_append_inj first otherFirst hfree.1 hother.1
            (endsBefore_block behind hbefore)
              (endsBefore_block otherBehind hends) hrows
          obtain ⟨hbehind, hrest⟩ :=
            Block.rows_append_inj behind otherBehind hfree.2 hother.2
              hbefore hends htail
          exact ⟨congrArg₂ Block.cons hfirst hbehind, hrest⟩

end

/-- Programs have the same rows if they are the same when the parts of every
`if` are joined. -/
theorem Block.rows_eq_iff (block : Block α) (other : Block β) :
    block.rows 0 = other.rows 0 ↔ block.joined.bare = other.joined.bare := by
  constructor
  · intro hrows
    have hnone : EndsBefore 0 [] := by rintro row ⟨⟩
    rw [← block.rows_joined, ← other.rows_joined] at hrows
    exact (Block.rows_append_inj block.joined other.joined block.elseFree_joined
      other.elseFree_joined hnone hnone (congrArg (· ++ []) hrows)).1
  · intro hjoined
    rw [← block.rows_joined, ← other.rows_joined, ← block.joined.rows_bare,
      hjoined, other.joined.rows_bare]

end Reading

end TinyCompiler
