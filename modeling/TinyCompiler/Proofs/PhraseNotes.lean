import TinyCompiler.Tree.Unfold

/-!
# Notes and names of phrases

Phrases with other notes, the notes of their expressions, and the names that
occur in them, a name before the parts of its phrase.
-/

namespace TinyCompiler

/-- The name of the variable that a form uses itself. -/
def Form.name? : Form → Option String
  | .assign name _ | .read name | .var name => some name
  | .ifElse _ _ _ | .repeatUntil _ _ | .write _ | .op _ _ _ | .const _ => none

def Expr.mapNote (change : α → β) : Expr α → Expr β
  | .const note value => .const (change note) value
  | .var note name => .var (change note) name
  | .op note operator left right =>
      .op (change note) operator (left.mapNote change) (right.mapNote change)

mutual

def Stmt.mapNote (change : α → β) : Stmt α → Stmt β
  | .read note name => .read (change note) name
  | .assign note name value => .assign (change note) name (value.mapNote change)
  | .write note value => .write (change note) (value.mapNote change)
  | .ifThen note test thenPart =>
      .ifThen (change note) (test.mapNote change) (thenPart.mapNote change)
  | .ifElse note test thenPart elsePart =>
      .ifElse (change note) (test.mapNote change) (thenPart.mapNote change)
        (elsePart.mapNote change)
  | .repeatUntil note body test =>
      .repeatUntil (change note) (body.mapNote change) (test.mapNote change)

def Block.mapNote (change : α → β) : Block α → Block β
  | .nil => .nil
  | .cons first rest => .cons (first.mapNote change) (rest.mapNote change)

end

/-- The notes of an expression and of its parts. -/
def Expr.notes : Expr α → List α
  | .const note _ => [note]
  | .var note _ => [note]
  | .op note _ left right => left.notes ++ right.notes ++ [note]

mutual

/-- The notes of the expressions in a statement. -/
def Stmt.exprNotes : Stmt α → List α
  | .read _ _ => []
  | .assign _ _ value => value.notes
  | .write _ value => value.notes
  | .ifThen _ test thenPart => test.notes ++ thenPart.exprNotes
  | .ifElse _ test thenPart elsePart =>
      test.notes ++ thenPart.exprNotes ++ elsePart.exprNotes
  | .repeatUntil _ body test => body.exprNotes ++ test.notes

def Block.exprNotes : Block α → List α
  | .nil => []
  | .cons first rest => first.exprNotes ++ rest.exprNotes

end

def Expr.names : Expr α → List String
  | .const _ _ => []
  | .var _ name => [name]
  | .op _ _ left right => left.names ++ right.names

mutual

def Stmt.names : Stmt α → List String
  | .read _ name => [name]
  | .assign _ name value => name :: value.names
  | .write _ value => value.names
  | .ifThen _ test thenPart => test.names ++ thenPart.names
  | .ifElse _ test thenPart elsePart =>
      test.names ++ thenPart.names ++ elsePart.names
  | .repeatUntil _ body test => body.names ++ test.names

def Block.names : Block α → List String
  | .nil => []
  | .cons first rest => first.names ++ rest.names

end

theorem Expr.notes_mapNote (change : α → β) (expr : Expr α) :
    (expr.mapNote change).notes = expr.notes.map change := by
  induction expr with
  | const note value => rfl
  | var note name => rfl
  | op note operator left right ihLeft ihRight =>
      simp [mapNote, notes, ihLeft, ihRight]

theorem Expr.names_mapNote (change : α → β) (expr : Expr α) :
    (expr.mapNote change).names = expr.names := by
  induction expr with
  | const note value => rfl
  | var note name => rfl
  | op note operator left right ihLeft ihRight =>
      simp [mapNote, names, ihLeft, ihRight]

mutual

theorem Stmt.exprNotes_mapNote (change : α → β) :
    ∀ stmt : Stmt α, (stmt.mapNote change).exprNotes = stmt.exprNotes.map change
  | .read note name => rfl
  | .assign note name value =>
      by simp [Stmt.mapNote, Stmt.exprNotes, Expr.notes_mapNote]
  | .write note value =>
      by simp [Stmt.mapNote, Stmt.exprNotes, Expr.notes_mapNote]
  | .ifThen note test thenPart => by
      simp [Stmt.mapNote, Stmt.exprNotes, Expr.notes_mapNote,
        Block.exprNotes_mapNote change thenPart]
  | .ifElse note test thenPart elsePart => by
      simp [Stmt.mapNote, Stmt.exprNotes, Expr.notes_mapNote,
        Block.exprNotes_mapNote change thenPart,
        Block.exprNotes_mapNote change elsePart]
  | .repeatUntil note body test => by
      simp [Stmt.mapNote, Stmt.exprNotes, Expr.notes_mapNote,
        Block.exprNotes_mapNote change body]

theorem Block.exprNotes_mapNote (change : α → β) :
    ∀ block : Block α,
      (block.mapNote change).exprNotes = block.exprNotes.map change
  | .nil => rfl
  | .cons first rest => by
      simp [Block.mapNote, Block.exprNotes, Stmt.exprNotes_mapNote change first,
        Block.exprNotes_mapNote change rest]

end

mutual

theorem Stmt.names_mapNote (change : α → β) :
    ∀ stmt : Stmt α, (stmt.mapNote change).names = stmt.names
  | .read note name => rfl
  | .assign note name value =>
      by simp [Stmt.mapNote, Stmt.names, Expr.names_mapNote]
  | .write note value => by simp [Stmt.mapNote, Stmt.names, Expr.names_mapNote]
  | .ifThen note test thenPart => by
      simp [Stmt.mapNote, Stmt.names, Expr.names_mapNote,
        Block.names_mapNote change thenPart]
  | .ifElse note test thenPart elsePart => by
      simp [Stmt.mapNote, Stmt.names, Expr.names_mapNote,
        Block.names_mapNote change thenPart,
        Block.names_mapNote change elsePart]
  | .repeatUntil note body test => by
      simp [Stmt.mapNote, Stmt.names, Expr.names_mapNote,
        Block.names_mapNote change body]

theorem Block.names_mapNote (change : α → β) :
    ∀ block : Block α, (block.mapNote change).names = block.names
  | .nil => rfl
  | .cons first rest => by
      simp [Block.mapNote, Block.names, Stmt.names_mapNote change first,
        Block.names_mapNote change rest]

end

end TinyCompiler
