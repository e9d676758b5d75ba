import TinyCompiler.Proofs.Grammar
import TinyCompiler.Proofs.PhraseNotes
import TinyCompiler.Proofs.TypeSystem

/-!
# Tokens of constructs

The token that starts a construct is the keyword of a statement, the target of
an assignment or the operator of an operation.  A derivation denotes a phrase
with that token at each node.  A type error is about the token of the construct
whose rule is broken, and the analysis reports the line of this token.
-/

namespace TinyCompiler

/-! ## Broken rules -/

/-- The error of a construct with such a note, unless its rule holds. -/
def TypeError.unless (error : TypeError) (holds : Bool) (note : α) :
    List (TypeError × α) :=
  if holds then [] else [(error, note)]

/-- The typing rules that an expression breaks, each with the note of the
construct. -/
def Expr.breaches : Expr α → List (TypeError × α)
  | .const _ _ => []
  | .var _ _ => []
  | .op note _ left right =>
      left.breaches ++ right.breaches ++
        TypeError.operand.unless
          (left.type = .integer && right.type = .integer) note

mutual

def Stmt.breaches : Stmt α → List (TypeError × α)
  | .read _ _ => []
  | .assign note _ value =>
      value.breaches ++ TypeError.assignedValue.unless
        (value.type = .integer) note
  | .write note value =>
      value.breaches ++ TypeError.writtenValue.unless
        (value.type = .integer) note
  | .ifThen note test thenPart =>
      test.breaches ++ thenPart.breaches ++
        TypeError.ifTest.unless (test.type = .boolean) note
  | .ifElse note test thenPart elsePart =>
      test.breaches ++ thenPart.breaches ++ elsePart.breaches ++
        TypeError.ifTest.unless (test.type = .boolean) note
  | .repeatUntil note body test =>
      body.breaches ++ test.breaches ++ TypeError.repeatTest.unless
        (test.type = .boolean) note

def Block.breaches : Block α → List (TypeError × α)
  | .nil => []
  | .cons first rest => first.breaches ++ rest.breaches

end

/-! ## Notes of broken rules -/

theorem TypeError.unless_map (error : TypeError) (holds : Bool) (note : α)
    (change : α → β) :
    (error.unless holds note).map (Prod.map id change) = error.unless holds
    (change note) := by
  cases holds <;> rfl

theorem TypeError.mistakes_require (error : TypeError) (holds : Bool)
    (line : Nat) :
    Finding.mistakes (Finding.require holds error line) =
      error.unless holds line := by
  cases holds <;> rfl

theorem TypeError.mem_of_mem_unless {error : TypeError} {holds : Bool}
    {note : α} {breach : TypeError × α}
    (hbreach : breach ∈ error.unless holds note) : breach.2 = note := by
  cases holds with
  | false => rw [List.mem_singleton.mp hbreach]
  | true => cases hbreach

@[simp] theorem Expr.type_mapNote (change : α → β) (expr : Expr α) :
    (expr.mapNote change).type = expr.type := by
  cases expr <;> rfl

theorem Expr.breaches_mapNote (change : α → β) (expr : Expr α) :
    (expr.mapNote change).breaches = expr.breaches.map
    (Prod.map id change) := by
  induction expr with
  | const note value => rfl
  | var note name => rfl
  | op note operator left right ihLeft ihRight =>
      simp [mapNote, breaches, ihLeft, ihRight, TypeError.unless_map]

mutual

theorem Stmt.breaches_mapNote (change : α → β) : ∀ stmt : Stmt α,
    (stmt.mapNote change).breaches = stmt.breaches.map (Prod.map id change)
  | .read note name => rfl
  | .assign note name value => by
      simp [Stmt.mapNote, Stmt.breaches, Expr.breaches_mapNote,
        TypeError.unless_map]
  | .write note value => by
      simp [Stmt.mapNote, Stmt.breaches, Expr.breaches_mapNote,
        TypeError.unless_map]
  | .ifThen note test thenPart => by
      simp [Stmt.mapNote, Stmt.breaches, Expr.breaches_mapNote,
        TypeError.unless_map, Block.breaches_mapNote change thenPart]
  | .ifElse note test thenPart elsePart => by
      simp [Stmt.mapNote, Stmt.breaches, Expr.breaches_mapNote,
        TypeError.unless_map, Block.breaches_mapNote change thenPart,
        Block.breaches_mapNote change elsePart]
  | .repeatUntil note body test => by
      simp [Stmt.mapNote, Stmt.breaches, Expr.breaches_mapNote,
        TypeError.unless_map, Block.breaches_mapNote change body]

theorem Block.breaches_mapNote (change : α → β) : ∀ block : Block α,
    (block.mapNote change).breaches = block.breaches.map (Prod.map id change)
  | .nil => rfl
  | .cons first rest => by
      simp [Block.mapNote, Block.breaches, Stmt.breaches_mapNote change first,
        Block.breaches_mapNote change rest]

end

/-! ## The mistakes of the analysis -/

theorem Expr.mistakes_findings (expr : Expr Mark) :
    Finding.mistakes expr.findings = (expr.mapNote Mark.line).breaches := by
  induction expr with
  | const mark value => rfl
  | var mark name => rfl
  | op mark operator left right ihLeft ihRight =>
      simp [findings, mapNote, breaches, ihLeft, ihRight,
        TypeError.mistakes_require]

mutual

theorem Stmt.mistakes_findings : ∀ stmt : Stmt Mark,
    Finding.mistakes stmt.findings = (stmt.mapNote Mark.line).breaches
  | .read mark name => rfl
  | .assign mark name value => by
      simp [Stmt.findings, Stmt.mapNote, Stmt.breaches, value.mistakes_findings,
        TypeError.mistakes_require]
  | .write mark value => by
      simp [Stmt.findings, Stmt.mapNote, Stmt.breaches, value.mistakes_findings,
        TypeError.mistakes_require]
  | .ifThen mark test thenPart => by
      simp [Stmt.findings, Stmt.mapNote, Stmt.breaches, test.mistakes_findings,
        TypeError.mistakes_require, Block.mistakes_findings thenPart]
  | .ifElse mark test thenPart elsePart => by
      simp [Stmt.findings, Stmt.mapNote, Stmt.breaches, test.mistakes_findings,
        TypeError.mistakes_require, Block.mistakes_findings thenPart,
        Block.mistakes_findings elsePart]
  | .repeatUntil mark body test => by
      simp [Stmt.findings, Stmt.mapNote, Stmt.breaches, test.mistakes_findings,
        TypeError.mistakes_require, Block.mistakes_findings body]

theorem Block.mistakes_findings : ∀ block : Block Mark,
    Finding.mistakes block.findings = (block.mapNote Mark.line).breaches
  | .nil => rfl
  | .cons first rest => by
      simp [Block.findings, Block.mapNote, Block.breaches,
        Stmt.mistakes_findings first, Block.mistakes_findings rest]

end

/-! ## Derivations -/

namespace Grammar

/-- An operation with its operator as note. -/
def Terminal.operation (operator : Terminal kinds) (left right : Expr Token) :
    Expr Token :=
  .op operator.token operator.token.operator left right

mutual

/-- The phrase of a derivation with the tokens that start its constructs. -/
def Exp.marked : Exp → Expr Token
  | .mk left rest => rest.markedBehind left.marked

def Comparison.markedBehind : Comparison → Expr Token → Expr Token
  | .none, left => left
  | .some operator right, left => operator.operation left right.marked

def SimpleExp.marked : SimpleExp → Expr Token
  | .mk first rest => rest.markedBehind first.marked

def Terms.markedBehind : Terms → Expr Token → Expr Token
  | .nil, left => left
  | .cons operator next rest, left =>
      rest.markedBehind (operator.operation left next.marked)

def Term.marked : Term → Expr Token
  | .mk first rest => rest.markedBehind first.marked

def Factors.markedBehind : Factors → Expr Token → Expr Token
  | .nil, left => left
  | .cons operator next rest, left =>
      rest.markedBehind (operator.operation left next.marked)

def Factor.marked : Factor → Expr Token
  | .group _ inner _ => inner.marked
  | .number token => .const token.token token.token.value
  | .identifier token => .var token.token token.token.text

end

mutual

def Statement.marked : Statement → Stmt Token
  | .ifThen ifWord test _ thenPart _ =>
      .ifThen ifWord.token test.marked thenPart.marked
  | .ifElse ifWord test _ thenPart _ elsePart _ =>
      .ifElse ifWord.token test.marked thenPart.marked elsePart.marked
  | .repeatUntil repeatWord body _ test =>
      .repeatUntil repeatWord.token body.marked test.marked
  | .assign target _ value =>
      .assign target.token target.token.text value.marked
  | .read readWord target => .read readWord.token target.token.text
  | .write writeWord value => .write writeWord.token value.marked

def Sequence.marked : Sequence → Block Token
  | .mk first rest => .cons first.marked rest.marked

def Statements.marked : Statements → Block Token
  | .nil => .nil
  | .cons _ next rest => .cons next.marked rest.marked

end

/-! ### Lines of the tokens -/

mutual

theorem Exp.mapNote_marked :
    ∀ exp : Exp, exp.marked.mapNote Token.line = exp.expr
  | .mk left rest => by
      rw [Exp.marked, Comparison.mapNote_markedBehind rest,
        SimpleExp.mapNote_marked left]
      rfl

theorem Comparison.mapNote_markedBehind :
    ∀ (rest : Comparison) (left : Expr Token),
    (rest.markedBehind left).mapNote Token.line = rest.extend
    (left.mapNote Token.line)
  | .none, left => rfl
  | .some operator right, left => by
      rw [Comparison.extend, ← SimpleExp.mapNote_marked right]
      rfl

theorem SimpleExp.mapNote_marked :
    ∀ exp : SimpleExp, exp.marked.mapNote Token.line = exp.expr
  | .mk first rest => by
      rw [SimpleExp.marked, Terms.mapNote_markedBehind rest,
        Term.mapNote_marked first]
      rfl

theorem Terms.mapNote_markedBehind : ∀ (rest : Terms) (left : Expr Token),
    (rest.markedBehind left).mapNote Token.line = rest.extend
    (left.mapNote Token.line)
  | .nil, left => rfl
  | .cons operator next rest, left => by
      rw [Terms.markedBehind, Terms.mapNote_markedBehind rest, Terms.extend,
        ← Term.mapNote_marked next]
      rfl

theorem Term.mapNote_marked :
    ∀ term : Term, term.marked.mapNote Token.line = term.expr
  | .mk first rest => by
      rw [Term.marked, Factors.mapNote_markedBehind rest,
        Factor.mapNote_marked first]
      rfl

theorem Factors.mapNote_markedBehind : ∀ (rest : Factors) (left : Expr Token),
    (rest.markedBehind left).mapNote Token.line = rest.extend
    (left.mapNote Token.line)
  | .nil, left => rfl
  | .cons operator next rest, left => by
      rw [Factors.markedBehind, Factors.mapNote_markedBehind rest,
        Factors.extend, ← Factor.mapNote_marked next]
      rfl

theorem Factor.mapNote_marked : ∀ factor : Factor,
    factor.marked.mapNote Token.line = factor.expr
  | .group _ inner _ => inner.mapNote_marked
  | .number _ => rfl
  | .identifier _ => rfl

end

mutual

theorem Statement.mapNote_marked : ∀ statement : Statement,
    statement.marked.mapNote Token.line = statement.stmt
  | .ifThen ifWord test thenWord thenPart endWord => by
      rw [Statement.stmt, ← test.mapNote_marked,
        ← Sequence.mapNote_marked thenPart]
      rfl
  | .ifElse ifWord test thenWord thenPart elseWord elsePart endWord => by
      rw [Statement.stmt, ← test.mapNote_marked,
        ← Sequence.mapNote_marked thenPart, ← Sequence.mapNote_marked elsePart]
      rfl
  | .repeatUntil repeatWord body untilWord test => by
      rw [Statement.stmt, ← test.mapNote_marked, ← Sequence.mapNote_marked body]
      rfl
  | .assign target sign value => by
      rw [Statement.stmt, ← value.mapNote_marked]
      rfl
  | .read readWord target => rfl
  | .write writeWord value => by
      rw [Statement.stmt, ← value.mapNote_marked]
      rfl

theorem Sequence.mapNote_marked : ∀ sequence : Sequence,
    sequence.marked.mapNote Token.line = sequence.block
  | .mk first rest => by
      rw [Sequence.block, ← Statement.mapNote_marked first,
        ← Statements.mapNote_marked rest]
      rfl

theorem Statements.mapNote_marked : ∀ rest : Statements,
    rest.marked.mapNote Token.line = rest.block
  | .nil => rfl
  | .cons semicolon next rest => by
      rw [Statements.block, ← Statement.mapNote_marked next,
        ← Statements.mapNote_marked rest]
      rfl

end

/-! ### Tokens of broken rules -/

variable {breach : TypeError × Token}

theorem Terminal.breaches_operation {operator : Terminal kinds}
    {left right : Expr Token}
    (hbreach : breach ∈ (operator.operation left right).breaches) :
    breach ∈ left.breaches ∨ breach ∈ right.breaches ∨
      breach.2 = operator.token := by
  rcases List.mem_append.mp hbreach with hparts | hown
  · rcases List.mem_append.mp hparts with hleft | hright
    · exact .inl hleft
    · exact .inr (.inl hright)
  · exact .inr (.inr (TypeError.mem_of_mem_unless hown))

mutual

theorem Exp.breach_mem :
    ∀ exp : Exp, breach ∈ exp.marked.breaches → breach.2 ∈ exp.tokens
  | .mk left rest, hbreach => by
      rcases Comparison.breach_mem rest hbreach with hleft | hrest
      · exact List.mem_append_left _ (SimpleExp.breach_mem left hleft)
      · exact List.mem_append_right _ hrest

theorem Comparison.breach_mem : ∀ (rest : Comparison) {left : Expr Token},
    breach ∈ (rest.markedBehind left).breaches → breach ∈ left.breaches ∨
      breach.2 ∈ rest.tokens
  | .none, left, hbreach => .inl hbreach
  | .some operator right, left, hbreach => by
      rcases Terminal.breaches_operation hbreach with hleft | hright | hown
      · exact .inl hleft
      · exact .inr (List.mem_cons_of_mem _ (SimpleExp.breach_mem right hright))
      · exact .inr (hown ▸ List.mem_cons_self)

theorem SimpleExp.breach_mem : ∀ exp : SimpleExp,
    breach ∈ exp.marked.breaches → breach.2 ∈ exp.tokens
  | .mk first rest, hbreach => by
      rcases Terms.breach_mem rest hbreach with hfirst | hrest
      · exact List.mem_append_left _ (Term.breach_mem first hfirst)
      · exact List.mem_append_right _ hrest

theorem Terms.breach_mem : ∀ (rest : Terms) {left : Expr Token},
    breach ∈ (rest.markedBehind left).breaches → breach ∈ left.breaches ∨
      breach.2 ∈ rest.tokens
  | .nil, left, hbreach => .inl hbreach
  | .cons operator next rest, left, hbreach => by
      rcases Terms.breach_mem rest hbreach with hjoined | hrest
      · rcases Terminal.breaches_operation hjoined with hleft | hnext | hown
        · exact .inl hleft
        · exact .inr
            (List.mem_cons_of_mem
            _ (List.mem_append_left _ (Term.breach_mem next hnext)))
        · exact .inr (hown ▸ List.mem_cons_self)
      · exact .inr (List.mem_cons_of_mem _ (List.mem_append_right _ hrest))

theorem Term.breach_mem :
    ∀ term : Term, breach ∈ term.marked.breaches → breach.2 ∈ term.tokens
  | .mk first rest, hbreach => by
      rcases Factors.breach_mem rest hbreach with hfirst | hrest
      · exact List.mem_append_left _ (Factor.breach_mem first hfirst)
      · exact List.mem_append_right _ hrest

theorem Factors.breach_mem : ∀ (rest : Factors) {left : Expr Token},
    breach ∈ (rest.markedBehind left).breaches → breach ∈ left.breaches ∨
      breach.2 ∈ rest.tokens
  | .nil, left, hbreach => .inl hbreach
  | .cons operator next rest, left, hbreach => by
      rcases Factors.breach_mem rest hbreach with hjoined | hrest
      · rcases Terminal.breaches_operation hjoined with hleft | hnext | hown
        · exact .inl hleft
        · exact .inr
            (List.mem_cons_of_mem
              _ (List.mem_append_left _ (Factor.breach_mem next hnext)))
        · exact .inr (hown ▸ List.mem_cons_self)
      · exact .inr (List.mem_cons_of_mem _ (List.mem_append_right _ hrest))

theorem Factor.breach_mem : ∀ factor : Factor,
    breach ∈ factor.marked.breaches → breach.2 ∈ factor.tokens
  | .group _ inner _, hbreach =>
      List.mem_cons_of_mem _ (List.mem_append_left _ (inner.breach_mem hbreach))
  | .number _, hbreach => absurd hbreach List.not_mem_nil
  | .identifier _, hbreach => absurd hbreach List.not_mem_nil

end

mutual

theorem Statement.breach_mem : ∀ statement : Statement,
    breach ∈ statement.marked.breaches → breach.2 ∈ statement.tokens
  | .ifThen ifWord test thenWord thenPart endWord, hbreach => by
      simp only [Statement.marked, Stmt.breaches, List.mem_append] at hbreach
      simp only [Statement.tokens, List.mem_cons, List.mem_append]
      rcases hbreach with (htest | hthen) | hown
      · exact .inr (.inl (test.breach_mem htest))
      · exact .inr (.inr (.inr (.inl (Sequence.breach_mem thenPart hthen))))
      · exact .inl (TypeError.mem_of_mem_unless hown)
  | .ifElse ifWord test thenWord thenPart elseWord elsePart
        endWord, hbreach => by
      simp only [Statement.marked, Stmt.breaches, List.mem_append] at hbreach
      simp only [Statement.tokens, List.mem_cons, List.mem_append]
      rcases hbreach with ((htest | hthen) | helse) | hown
      · exact .inr (.inl (test.breach_mem htest))
      · exact .inr (.inr (.inr (.inl (Sequence.breach_mem thenPart hthen))))
      · exact .inr
          (.inr (.inr (.inr
          (.inr (.inl (Sequence.breach_mem elsePart helse))))))
      · exact .inl (TypeError.mem_of_mem_unless hown)
  | .repeatUntil repeatWord body untilWord test, hbreach => by
      simp only [Statement.marked, Stmt.breaches, List.mem_append] at hbreach
      simp only [Statement.tokens, List.mem_cons, List.mem_append]
      rcases hbreach with (hbody | htest) | hown
      · exact .inr (.inl (Sequence.breach_mem body hbody))
      · exact .inr (.inr (.inr (test.breach_mem htest)))
      · exact .inl (TypeError.mem_of_mem_unless hown)
  | .assign target sign value, hbreach => by
      rcases List.mem_append.mp hbreach with hvalue | hown
      · exact List.mem_cons_of_mem
          _ (List.mem_cons_of_mem _ (value.breach_mem hvalue))
      · exact TypeError.mem_of_mem_unless hown ▸ List.mem_cons_self
  | .read readWord target, hbreach => absurd hbreach List.not_mem_nil
  | .write writeWord value, hbreach => by
      rcases List.mem_append.mp hbreach with hvalue | hown
      · exact List.mem_cons_of_mem _ (value.breach_mem hvalue)
      · exact TypeError.mem_of_mem_unless hown ▸ List.mem_cons_self

theorem Sequence.breach_mem : ∀ sequence : Sequence,
    breach ∈ sequence.marked.breaches → breach.2 ∈ sequence.tokens
  | .mk first rest, hbreach => by
      rcases List.mem_append.mp hbreach with hfirst | hrest
      · exact List.mem_append_left _ (Statement.breach_mem first hfirst)
      · exact List.mem_append_right _ (Statements.breach_mem rest hrest)

theorem Statements.breach_mem : ∀ rest : Statements,
    breach ∈ rest.marked.breaches → breach.2 ∈ rest.tokens
  | .nil, hbreach => absurd hbreach List.not_mem_nil
  | .cons _ next rest, hbreach => by
      rcases List.mem_append.mp hbreach with hnext | hrest
      · exact List.mem_cons_of_mem
          _ (List.mem_append_left _ (Statement.breach_mem next hnext))
      · exact List.mem_cons_of_mem
          _ (List.mem_append_right _ (Statements.breach_mem rest hrest))

end

end Grammar

end TinyCompiler
