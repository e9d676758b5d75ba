import TinyCompiler.Proofs.Grammar

/-!
# Unambiguity of the grammar

Two derivations of a symbol at the beginning of the same tokens are the same, if
what follows them could not have been derived as a part of them.  What follows
an expression must not be an operator, and what follows a sequence must not be
an operator or a semicolon.
-/

namespace TinyCompiler.Grammar

def operators : List Token.Kind := relations ++ sums ++ products

/-- The tokens do not start with one of some kinds. -/
def Avoids (kinds : List Token.Kind) (tokens : List Token) : Prop :=
  ∀ token ∈ tokens.head?, token.kind ∉ kinds

section Avoids

variable {kinds others : List Token.Kind} {tokens rest : List Token}

theorem avoids_nil (kinds : List Token.Kind) : Avoids kinds [] := by
  simp [Avoids]

theorem Terminal.avoids (terminal : Terminal others) (rest : List Token)
    (hkinds : ∀ kind ∈ others, kind ∉ kinds) :
    Avoids kinds (terminal.token :: rest) := by
  intro token htoken
  obtain rfl := Option.some.inj htoken
  exact hkinds _ terminal.kind_mem

theorem Avoids.token_ne (havoids : Avoids kinds tokens)
    (terminal : Terminal others) (hkinds : ∀ kind ∈ others, kind ∈ kinds) :
    tokens ≠ terminal.token :: rest := by
  rintro rfl
  exact havoids _ rfl (hkinds _ terminal.kind_mem)

theorem Avoids.mono (havoids : Avoids others tokens)
    (hkinds : ∀ kind ∈ kinds, kind ∈ others) : Avoids kinds tokens :=
  fun token htoken hmem => havoids token htoken (hkinds _ hmem)

theorem Avoids.append (hkinds : Avoids kinds tokens)
    (hothers : Avoids others tokens) :
    Avoids (kinds ++ others) tokens := by
  intro token htoken hmem
  rcases List.mem_append.mp hmem with hmem | hmem
  · exact hkinds token htoken hmem
  · exact hothers token htoken hmem

theorem Terminal.token_ne (terminal : Terminal kinds) (other : Terminal others)
    (hkinds : ∀ kind ∈ kinds, kind ∉ others) :
    terminal.token ≠ other.token := by
  intro hsame
  exact hkinds _ terminal.kind_mem (hsame ▸ other.kind_mem)

theorem Terminal.cons_inj {terminal other : Terminal kinds}
    {rest otherRest : List Token}
    (htokens : terminal.token :: rest = other.token :: otherRest) :
    terminal = other ∧ rest = otherRest := by
  obtain ⟨htoken, hrest⟩ := List.cons.inj htokens
  exact ⟨Terminal.ext htoken, hrest⟩

theorem Factors.avoids (factors : Factors) (havoids : Avoids kinds rest)
    (hkinds : ∀ kind ∈ products, kind ∉ kinds) :
    Avoids kinds (factors.tokens ++ rest) := by
  cases factors with
  | nil => exact havoids
  | cons operator next others => exact operator.avoids _ hkinds

theorem Terms.avoids (terms : Terms) (havoids : Avoids kinds rest)
    (hkinds : ∀ kind ∈ sums, kind ∉ kinds) :
    Avoids kinds (terms.tokens ++ rest) := by
  cases terms with
  | nil => exact havoids
  | cons operator next others => exact operator.avoids _ hkinds

theorem Comparison.avoids (comparison : Comparison)
    (havoids : Avoids kinds rest) (hkinds : ∀ kind ∈ relations, kind ∉ kinds) :
    Avoids kinds (comparison.tokens ++ rest) := by
  cases comparison with
  | none => exact havoids
  | some operator right => exact operator.avoids _ hkinds

theorem Statements.avoids (statements : Statements)
    (havoids : Avoids kinds rest) (hkinds : .semicolon ∉ kinds) :
    Avoids kinds (statements.tokens ++ rest) := by
  cases statements with
  | nil => exact havoids
  | cons semicolon next others =>
      exact semicolon.avoids _ (by simpa using hkinds)

end Avoids

theorem Terminal.ofKind?_eq {kinds : List Token.Kind}
    (operator : Terminal kinds) (hkinds : ∀ kind ∈ kinds, kind ∈ operators) :
    Operator.ofKind? operator.token.kind = some operator.token.operator := by
  have hmem := hkinds _ operator.kind_mem
  unfold Token.operator
  revert hmem
  cases operator.token.kind <;> decide

/-! ## Expressions -/

mutual

theorem Exp.unique : ∀ (exp other : Exp) {rest otherRest : List Token},
    exp.tokens ++ rest = other.tokens ++ otherRest →
    Avoids operators rest → Avoids operators otherRest → exp = other ∧
      rest = otherRest
  | .mk left comparison, .mk otherLeft otherComparison, rest, otherRest,
      htokens, hrest, hotherRest => by
      simp only [Exp.tokens, List.append_assoc] at htokens
      obtain ⟨rfl, hbehind⟩ := left.unique otherLeft htokens
        (comparison.avoids (hrest.mono (by decide)) (by decide))
        (otherComparison.avoids (hotherRest.mono (by decide)) (by decide))
      obtain ⟨rfl, hsame⟩ :=
        comparison.unique otherComparison hbehind hrest hotherRest
      exact ⟨rfl, hsame⟩

theorem Comparison.unique :
    ∀ (comparison other : Comparison) {rest otherRest : List Token},
    comparison.tokens ++ rest = other.tokens ++ otherRest →
    Avoids operators rest → Avoids operators otherRest →
      comparison = other ∧ rest = otherRest
  | .none, .none, rest, otherRest, htokens, hrest, hotherRest => ⟨rfl, htokens⟩
  | .none, .some operator right, rest, otherRest, htokens, hrest, hotherRest =>
      absurd htokens (hrest.token_ne operator (by decide))
  | .some operator right, .none, rest, otherRest, htokens, hrest, hotherRest =>
      absurd htokens.symm (hotherRest.token_ne operator (by decide))
  | .some operator right, .some otherOperator otherRight, rest, otherRest,
      htokens, hrest, hotherRest => by
      obtain ⟨rfl, hright⟩ := Terminal.cons_inj htokens
      obtain ⟨rfl, hsame⟩ :=
        right.unique otherRight hright (hrest.mono (by decide))
        (hotherRest.mono (by decide))
      exact ⟨rfl, hsame⟩

theorem SimpleExp.unique :
    ∀ (simple other : SimpleExp) {rest otherRest : List Token},
    simple.tokens ++ rest = other.tokens ++ otherRest →
    Avoids (sums ++ products) rest → Avoids (sums ++ products) otherRest →
      simple = other ∧ rest = otherRest
  | .mk first terms, .mk otherFirst otherTerms, rest, otherRest, htokens, hrest,
      hotherRest => by
      simp only [SimpleExp.tokens, List.append_assoc] at htokens
      obtain ⟨rfl, hbehind⟩ := first.unique otherFirst htokens
        (terms.avoids (hrest.mono (by decide)) (by decide))
        (otherTerms.avoids (hotherRest.mono (by decide)) (by decide))
      obtain ⟨rfl, hsame⟩ := terms.unique otherTerms hbehind hrest hotherRest
      exact ⟨rfl, hsame⟩

theorem Terms.unique : ∀ (terms other : Terms) {rest otherRest : List Token},
    terms.tokens ++ rest = other.tokens ++ otherRest →
    Avoids (sums ++ products) rest → Avoids (sums ++ products) otherRest →
      terms = other ∧ rest = otherRest
  | .nil, .nil, rest, otherRest, htokens, hrest, hotherRest => ⟨rfl, htokens⟩
  | .nil, .cons operator next others, rest, otherRest, htokens, hrest,
      hotherRest =>
      absurd htokens (hrest.token_ne operator (by decide))
  | .cons operator next others, .nil, rest, otherRest, htokens, hrest,
      hotherRest =>
      absurd htokens.symm (hotherRest.token_ne operator (by decide))
  | .cons operator next terms, .cons otherOperator otherNext otherTerms, rest,
      otherRest, htokens, hrest, hotherRest => by
      simp only [Terms.tokens, List.cons_append, List.append_assoc] at htokens
      obtain ⟨rfl, hright⟩ := Terminal.cons_inj htokens
      obtain ⟨rfl, hbehind⟩ := next.unique otherNext hright
        (terms.avoids (hrest.mono (by decide)) (by decide))
        (otherTerms.avoids (hotherRest.mono (by decide)) (by decide))
      obtain ⟨rfl, hsame⟩ := terms.unique otherTerms hbehind hrest hotherRest
      exact ⟨rfl, hsame⟩

theorem Term.unique : ∀ (term other : Term) {rest otherRest : List Token},
    term.tokens ++ rest = other.tokens ++ otherRest →
    Avoids products rest → Avoids products otherRest → term = other ∧
      rest = otherRest
  | .mk first factors, .mk otherFirst otherFactors, rest, otherRest, htokens,
      hrest, hotherRest => by
      simp only [Term.tokens, List.append_assoc] at htokens
      obtain ⟨rfl, hbehind⟩ := first.unique otherFirst htokens
      obtain ⟨rfl, hsame⟩ :=
        factors.unique otherFactors hbehind hrest hotherRest
      exact ⟨rfl, hsame⟩

theorem Factors.unique :
    ∀ (factors other : Factors) {rest otherRest : List Token},
    factors.tokens ++ rest = other.tokens ++ otherRest →
    Avoids products rest → Avoids products otherRest → factors = other ∧
      rest = otherRest
  | .nil, .nil, rest, otherRest, htokens, hrest, hotherRest => ⟨rfl, htokens⟩
  | .nil, .cons operator next others, rest, otherRest, htokens, hrest,
      hotherRest =>
      absurd htokens (hrest.token_ne operator (by decide))
  | .cons operator next others, .nil, rest, otherRest, htokens, hrest,
      hotherRest =>
      absurd htokens.symm (hotherRest.token_ne operator (by decide))
  | .cons operator next factors, .cons otherOperator otherNext otherFactors,
      rest, otherRest, htokens, hrest, hotherRest => by
      simp only [Factors.tokens, List.cons_append, List.append_assoc] at htokens
      obtain ⟨rfl, hright⟩ := Terminal.cons_inj htokens
      obtain ⟨rfl, hbehind⟩ := next.unique otherNext hright
      obtain ⟨rfl, hsame⟩ :=
        factors.unique otherFactors hbehind hrest hotherRest
      exact ⟨rfl, hsame⟩

theorem Factor.unique : ∀ (factor other : Factor) {rest otherRest : List Token},
    factor.tokens ++ rest = other.tokens ++ otherRest → factor = other ∧
      rest = otherRest
  | .group opening inner closing, other, rest, otherRest, htokens => by
      cases other with
      | group otherOpening otherInner otherClosing =>
          simp only [Factor.tokens, List.cons_append,
            List.append_assoc] at htokens
          obtain ⟨rfl, hinner⟩ := Terminal.cons_inj htokens
          obtain ⟨rfl, hbehind⟩ := inner.unique otherInner hinner
            (closing.avoids _ (by decide)) (otherClosing.avoids _ (by decide))
          obtain ⟨rfl, hsame⟩ := Terminal.cons_inj hbehind
          exact ⟨rfl, hsame⟩
      | _ =>
          exact absurd (List.cons.inj htokens).1
            (opening.token_ne _ (by decide))
  | .number token, other, rest, otherRest, htokens => by
      cases other with
      | number otherToken =>
          obtain ⟨rfl, hsame⟩ := Terminal.cons_inj htokens
          exact ⟨rfl, hsame⟩
      | _ =>
          exact absurd (List.cons.inj htokens).1 (token.token_ne _ (by decide))
  | .identifier token, other, rest, otherRest, htokens => by
      cases other with
      | identifier otherToken =>
          obtain ⟨rfl, hsame⟩ := Terminal.cons_inj htokens
          exact ⟨rfl, hsame⟩
      | _ =>
          exact absurd (List.cons.inj htokens).1 (token.token_ne _ (by decide))

end

/-! ## Statements -/

/-- Equal tokens that start with the heading of an `if` have equal headings. -/
theorem heading_inj {ifWord otherIf : Terminal [.ifWord]} {test otherTest : Exp}
    {thenWord otherThen : Terminal [.thenWord]} {rest otherRest : List Token}
    (htokens : ifWord.token :: (test.tokens ++ thenWord.token :: rest) =
      otherIf.token :: (otherTest.tokens ++ otherThen.token :: otherRest)) :
    ifWord = otherIf ∧ test = otherTest ∧ thenWord = otherThen ∧
      rest = otherRest := by
  obtain ⟨hif, htest⟩ := Terminal.cons_inj htokens
  obtain ⟨hsame, hbehind⟩ := test.unique otherTest htest
    (thenWord.avoids _ (by decide)) (otherThen.avoids _ (by decide))
  obtain ⟨hthen, hrest⟩ := Terminal.cons_inj hbehind
  exact ⟨hif, hsame, hthen, hrest⟩

/-- The tokens of a statement belong to no other statement, if no operator
stands behind them. -/
def Statement.Determined (statement : Statement) : Prop :=
  ∀ (other : Statement) {rest otherRest : List Token},
    statement.tokens ++ rest = other.tokens ++ otherRest →
      Avoids operators rest → Avoids operators otherRest →
        statement = other ∧ rest = otherRest

def Sequence.Determined (sequence : Sequence) : Prop :=
  ∀ (other : Sequence) {rest otherRest : List Token},
    sequence.tokens ++ rest = other.tokens ++ otherRest →
      Avoids (.semicolon :: operators) rest →
        Avoids (.semicolon :: operators) otherRest →
          sequence = other ∧ rest = otherRest

/-- The words behind the then parts tell the two forms of an `if` apart. -/
theorem Sequence.Determined.word_behind {part otherPart : Sequence}
    (hpart : part.Determined) {kind otherKind : Token.Kind}
    {word : Terminal [kind]} {otherWord : Terminal [otherKind]}
    {rest otherRest : List Token}
    (htokens : part.tokens ++ word.token :: rest =
      otherPart.tokens ++ otherWord.token :: otherRest)
    (hkind : kind ∉ Token.Kind.semicolon :: operators)
    (hotherKind : otherKind ∉ Token.Kind.semicolon :: operators) :
    part = otherPart ∧ word.token :: rest = otherWord.token :: otherRest :=
  hpart otherPart htokens (word.avoids _ (List.forall_mem_singleton.mpr hkind))
    (otherWord.avoids _ (List.forall_mem_singleton.mpr hotherKind))

theorem Statement.ifThen_determined {ifWord : Terminal [.ifWord]} {test : Exp}
    {thenWord : Terminal [.thenWord]} {thenPart : Sequence}
    {endWord : Terminal [.endWord]} (hthen : thenPart.Determined) :
    (Statement.ifThen ifWord test thenWord thenPart endWord).Determined := by
  intro other rest otherRest htokens hrest hotherRest
  cases other with
  | ifThen otherIf otherTest otherThen otherThenPart otherEnd =>
      simp only [Statement.tokens, List.cons_append,
        List.append_assoc] at htokens
      obtain ⟨rfl, rfl, rfl, hpart⟩ := heading_inj htokens
      obtain ⟨rfl, hclose⟩ := hthen.word_behind hpart (by decide) (by decide)
      obtain ⟨rfl, hsame⟩ := Terminal.cons_inj hclose
      exact ⟨rfl, hsame⟩
  | ifElse otherIf otherTest otherThen otherThenPart otherElse otherElsePart
        otherEnd =>
      -- The two agree as far as the word behind the then part.
      simp only [Statement.tokens, List.cons_append,
        List.append_assoc] at htokens
      obtain ⟨-, -, -, hpart⟩ := heading_inj htokens
      obtain ⟨-, hclose⟩ := hthen.word_behind hpart (by decide) (by decide)
      exact absurd (List.cons.inj hclose).1 (endWord.token_ne _ (by decide))
  | _ => exact absurd (List.cons.inj htokens).1 (ifWord.token_ne _ (by decide))

theorem Statement.ifElse_determined {ifWord : Terminal [.ifWord]} {test : Exp}
    {thenWord : Terminal [.thenWord]} {thenPart elsePart : Sequence}
    {elseWord : Terminal [.elseWord]} {endWord : Terminal [.endWord]}
    (hthen : thenPart.Determined) (helse : elsePart.Determined) :
    (Statement.ifElse ifWord test thenWord thenPart elseWord elsePart
      endWord).Determined := by
  intro other rest otherRest htokens hrest hotherRest
  cases other with
  | ifElse otherIf otherTest otherThen otherThenPart otherElse otherElsePart
        otherEnd =>
      simp only [Statement.tokens, List.cons_append,
        List.append_assoc] at htokens
      obtain ⟨rfl, rfl, rfl, hpart⟩ := heading_inj htokens
      obtain ⟨rfl, hother⟩ := hthen.word_behind hpart (by decide) (by decide)
      obtain ⟨rfl, hotherPart⟩ := Terminal.cons_inj hother
      obtain ⟨rfl, hclose⟩ :=
        helse.word_behind hotherPart (by decide) (by decide)
      obtain ⟨rfl, hsame⟩ := Terminal.cons_inj hclose
      exact ⟨rfl, hsame⟩
  | ifThen otherIf otherTest otherThen otherThenPart otherEnd =>
      simp only [Statement.tokens, List.cons_append,
        List.append_assoc] at htokens
      obtain ⟨-, -, -, hpart⟩ := heading_inj htokens
      obtain ⟨-, hclose⟩ := hthen.word_behind hpart (by decide) (by decide)
      exact absurd (List.cons.inj hclose).1 (elseWord.token_ne _ (by decide))
  | _ => exact absurd (List.cons.inj htokens).1 (ifWord.token_ne _ (by decide))

theorem Statement.repeatUntil_determined {repeatWord : Terminal [.repeatWord]}
    {body : Sequence} {untilWord : Terminal [.untilWord]} {test : Exp}
    (hbody : body.Determined) :
    (Statement.repeatUntil repeatWord body untilWord test).Determined := by
  intro other rest otherRest htokens hrest hotherRest
  cases other with
  | repeatUntil otherRepeat otherBody otherUntil otherTest =>
      simp only [Statement.tokens, List.cons_append,
        List.append_assoc] at htokens
      obtain ⟨rfl, hpart⟩ := Terminal.cons_inj htokens
      obtain ⟨rfl, hbehind⟩ := hbody.word_behind hpart (by decide) (by decide)
      obtain ⟨rfl, htest⟩ := Terminal.cons_inj hbehind
      obtain ⟨rfl, hsame⟩ := test.unique otherTest htest hrest hotherRest
      exact ⟨rfl, hsame⟩
  | _ =>
      exact absurd (List.cons.inj htokens).1 (repeatWord.token_ne _ (by decide))

theorem Statement.assign_determined {target : Terminal [.identifier]}
    {sign : Terminal [.assignment]} {value : Exp} :
    (Statement.assign target sign value).Determined := by
  intro other rest otherRest htokens hrest hotherRest
  cases other with
  | assign otherTarget otherSign otherValue =>
      obtain ⟨rfl, hbehind⟩ := Terminal.cons_inj htokens
      obtain ⟨rfl, hvalue⟩ := Terminal.cons_inj hbehind
      obtain ⟨rfl, hsame⟩ := value.unique otherValue hvalue hrest hotherRest
      exact ⟨rfl, hsame⟩
  | _ => exact absurd (List.cons.inj htokens).1 (target.token_ne _ (by decide))

theorem Statement.read_determined {readWord : Terminal [.readWord]}
    {target : Terminal [.identifier]} :
    (Statement.read readWord target).Determined := by
  intro other rest otherRest htokens hrest hotherRest
  cases other with
  | read otherRead otherTarget =>
      obtain ⟨rfl, hbehind⟩ := Terminal.cons_inj htokens
      obtain ⟨rfl, hsame⟩ := Terminal.cons_inj hbehind
      exact ⟨rfl, hsame⟩
  | _ =>
      exact absurd (List.cons.inj htokens).1 (readWord.token_ne _ (by decide))

theorem Statement.write_determined {writeWord : Terminal [.writeWord]}
    {value : Exp} : (Statement.write writeWord value).Determined := by
  intro other rest otherRest htokens hrest hotherRest
  cases other with
  | write otherWrite otherValue =>
      obtain ⟨rfl, hvalue⟩ := Terminal.cons_inj htokens
      obtain ⟨rfl, hsame⟩ := value.unique otherValue hvalue hrest hotherRest
      exact ⟨rfl, hsame⟩
  | _ =>
      exact absurd (List.cons.inj htokens).1 (writeWord.token_ne _ (by decide))

mutual

theorem Statement.unique : ∀ statement : Statement, statement.Determined
  | .ifThen _ _ _ thenPart _ =>
      Statement.ifThen_determined (Sequence.unique thenPart)
  | .ifElse _ _ _ thenPart _ elsePart _ =>
      Statement.ifElse_determined (Sequence.unique thenPart)
        (Sequence.unique elsePart)
  | .repeatUntil _ body _ _ =>
      Statement.repeatUntil_determined (Sequence.unique body)
  | .assign _ _ _ => Statement.assign_determined
  | .read _ _ => Statement.read_determined
  | .write _ _ => Statement.write_determined

theorem Sequence.unique : ∀ sequence : Sequence, sequence.Determined
  | .mk first statements, .mk otherFirst otherStatements, rest, otherRest,
      htokens, hrest, hotherRest => by
      simp only [Sequence.tokens, List.append_assoc] at htokens
      obtain ⟨rfl, hbehind⟩ := first.unique otherFirst htokens
        (statements.avoids (hrest.mono (by decide)) (by decide))
        (otherStatements.avoids (hotherRest.mono (by decide)) (by decide))
      obtain ⟨rfl, hsame⟩ :=
        statements.unique otherStatements hbehind hrest hotherRest
      exact ⟨rfl, hsame⟩

theorem Statements.unique :
    ∀ (statements other : Statements) {rest otherRest : List Token},
    statements.tokens ++ rest = other.tokens ++ otherRest →
    Avoids (.semicolon :: operators) rest →
      Avoids (.semicolon :: operators) otherRest →
      statements = other ∧ rest = otherRest
  | .nil, .nil, rest, otherRest, htokens, hrest, hotherRest => ⟨rfl, htokens⟩
  | .nil, .cons semicolon next others, rest, otherRest, htokens, hrest,
      hotherRest =>
      absurd htokens (hrest.token_ne semicolon (by decide))
  | .cons semicolon next others, .nil, rest, otherRest, htokens, hrest,
      hotherRest =>
      absurd htokens.symm (hotherRest.token_ne semicolon (by decide))
  | .cons semicolon next statements,
      .cons otherSemicolon otherNext otherStatements, rest, otherRest, htokens,
      hrest, hotherRest => by
      simp only [Statements.tokens, List.cons_append,
        List.append_assoc] at htokens
      obtain ⟨rfl, hright⟩ := Terminal.cons_inj htokens
      obtain ⟨rfl, hbehind⟩ := next.unique otherNext hright
        (statements.avoids (hrest.mono (by decide)) (by decide))
        (otherStatements.avoids (hotherRest.mono (by decide)) (by decide))
      obtain ⟨rfl, hsame⟩ :=
        statements.unique otherStatements hbehind hrest hotherRest
      exact ⟨rfl, hsame⟩

end

/-- Tokens have at most one derivation as a program. -/
theorem Sequence.eq_of_tokens_eq {sequence other : Sequence}
    (htokens : sequence.tokens = other.tokens) : sequence = other :=
  (sequence.unique other (congrArg (· ++ []) htokens) (avoids_nil _)
    (avoids_nil _)).1

end TinyCompiler.Grammar
