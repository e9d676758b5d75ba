import TinyCompiler.Proofs.ParserCompleteness

/-!
# Parsed tokens are derived

Before tokens that come to an end of input the parser finds a derivation at
their beginning or refuses one of them.  What it has read before a token that it
refuses is the beginning of a derivation.  It never runs out of depth and never
asks for a node that does not fit.  The proof is by the number of tokens: every
goal that is reached before fewer of them behaves like that already.
-/

namespace TinyCompiler

/-- A problem with a token, told with the text of the token. -/
inductive Problem.Cites (text : String) : Problem → Prop where
  | unexpected : Cites text (.unexpectedToken text)
  | detailed (detail : String) :
      Cites text (.unexpectedTokenDetailed text detail)
  | number : Cites text (.numberOutOfRange text)

/-- The diagnostic is about a token: it has its line and its text. -/
def Diagnostic.Blames (diagnostic : Diagnostic) (token : Token) : Prop :=
  diagnostic.line = token.line ∧ diagnostic.problem.Cites token.text

end TinyCompiler

namespace TinyCompiler.Parser

open Grammar

/-- An end of input is among the tokens. -/
def Ended (tokens : List Token) : Prop :=
  ∃ token ∈ tokens, token.kind = .endOfInput

/-- Parsing stops before the first of the tokens and blames it. -/
def Refuses (tokens : List Token) (result : EStateM.Result Stop Parser α) :
    Prop :=
  ∃ file tree token rest diagnostic,
    tokens = token :: rest ∧ diagnostic.Blames token ∧
    result = .error (.rejected diagnostic) (before file tree tokens)

/-- Parsing stops at a token that is refused, and those read before it are the
beginning of a phrase. -/
def Offends (phrase : List Token → Prop) (tokens : List Token)
    (result : EStateM.Result Stop Parser α) : Prop :=
  ∃ consumed completion behind, tokens = consumed ++ behind ∧
    phrase (consumed ++ completion) ∧ Refuses behind result

section Refuses

variable {file : String} {tree : Tree} {token : Token}
  {tokens behind rest : List Token}
  {kind : Token.Kind} {phrase outer : List Token → Prop}

theorem Ended.ne_nil (hended : Ended tokens) : tokens ≠ [] := by
  obtain ⟨token, hmem, -⟩ := hended
  exact List.ne_nil_of_mem hmem

theorem Ended.tail (hended : Ended (token :: rest))
    (hkind : token.kind ≠ .endOfInput) :
    Ended rest := by
  obtain ⟨last, hmem, hlast⟩ := hended
  rcases List.mem_cons.mp hmem with rfl | hmem
  · exact absurd hlast hkind
  · exact ⟨last, hmem, hlast⟩

theorem Refuses.bind (first : Action α) {parser : Parser}
    (hrefuses : Refuses tokens (first parser)) (next : α → Action β) :
    Refuses tokens ((first >>= next) parser) := by
  obtain ⟨file, tree, token, rest, diagnostic, htokens, hblames, hfirst⟩ :=
    hrefuses
  exact ⟨file, tree, token, rest, diagnostic, htokens, hblames,
    bind_apply_of_error hfirst next⟩

theorem Offends.bind (first : Action α) {parser : Parser}
    (hoffends : Offends phrase tokens (first parser)) (next : α → Action β) :
    Offends phrase tokens ((first >>= next) parser) := by
  obtain ⟨consumed, completion, behind, htokens, hphrase, hrefuses⟩ := hoffends
  exact ⟨consumed, completion, behind, htokens, hphrase,
    hrefuses.bind first next⟩

/-- What offends in a part of a phrase offends in the phrase. -/
theorem Offends.within {result : EStateM.Result Stop Parser α}
    (hoffends : Offends phrase behind result) (front back : List Token)
    (htokens : tokens = front ++ behind)
    (houter : ∀ part, phrase part → outer (front ++ (part ++ back))) :
    Offends outer tokens result := by
  obtain ⟨consumed, completion, offending, rfl, hphrase, hrefuses⟩ := hoffends
  refine ⟨front ++ consumed, completion ++ back, offending, ?_, ?_, hrefuses⟩
  · rw [htokens, List.append_assoc]
  · simpa using houter _ hphrase

theorem Refuses.offends {result : EStateM.Result Stop Parser α}
    (hrefuses : Refuses behind result) (consumed completion : List Token)
    (htokens : tokens = consumed ++ behind)
    (hphrase : phrase (consumed ++ completion)) :
    Offends phrase tokens result :=
  ⟨consumed, completion, behind, htokens, hphrase, hrefuses⟩

theorem refuses_rejectCurrent (detail : String) :
    Refuses (token :: rest)
      (rejectCurrent detail (before file tree (token :: rest)) :
      EStateM.Result Stop Parser α) :=
  ⟨file, tree, token, rest, _, rfl, ⟨rfl, .detailed detail⟩, rfl⟩

theorem Offends.rejected {result : EStateM.Result Stop Parser α}
    (hoffends : Offends phrase tokens result) :
    ∃ diagnostic parser, result = .error (.rejected diagnostic) parser := by
  obtain ⟨_, _, _, _, _, _, _, _, _, diagnostic, _, _, hresult⟩ := hoffends
  exact ⟨diagnostic, _, hresult⟩

/-- Where one kind is expected, a token of it stands or the token there is
refused. -/
theorem expect_cases (kind : Token.Kind) (hkind : kind ≠ .endOfInput)
    (hended : Ended tokens) :
    (∃ (terminal : Terminal [kind]) (rest : List Token),
      tokens = terminal.token :: rest ∧ Ended rest) ∨
        (∀ tree, Refuses tokens (expect kind (before file tree tokens))) ∧
          ∀ tree detail, Refuses tokens
            (expectWith kind detail (before file tree tokens)) := by
  obtain ⟨token, rest, rfl⟩ := List.exists_cons_of_ne_nil hended.ne_nil
  by_cases hsame : token.kind = kind
  · exact .inl
      ⟨⟨token, by simp [hsame]⟩, rest, rfl, hended.tail (by rwa [hsame])⟩
  · have hrefuses : ∀ tree diagnostic, diagnostic.Blames token →
        Refuses (token :: rest)
          (expectOr kind diagnostic (before file tree (token :: rest))) := by
      intro tree diagnostic hblames
      refine ⟨file, tree, token, rest, diagnostic, rfl, hblames, ?_⟩
      rw [expectOr, bind_apply_of_ok (get_apply _), kind_before, if_neg hsame]
      rfl
    exact .inr ⟨fun tree => hrefuses tree _ ⟨rfl, .unexpected⟩,
      fun tree detail => hrefuses tree _ ⟨rfl, .detailed detail⟩⟩

end Refuses

/-! ## What goals derive -/

/-- The tokens are those of a derivation, and every number among them can be
read. -/
def Derived (tokensOf : σ → List Token) (tokens : List Token) : Prop :=
  ∃ derivation, tokens = tokensOf derivation ∧ Readable tokens

/-- A derivation stands at the beginning of the tokens, before others that may
follow it, or the tokens offend in one. -/
def Recognized (tokensOf : σ → List Token) (follows : σ → List Token → Prop)
    (tokens : List Token) (result : EStateM.Result Stop Parser α) : Prop :=
  Offends (Derived tokensOf) tokens result ∨
    ∃ derivation rest, tokens = tokensOf derivation ++ rest ∧
      Readable (tokensOf derivation) ∧ follows derivation rest ∧ Ended rest

/-- What may be derived behind the first factor of an expression whose operators
bind tighter than a power. -/
structure Tail (power : BindingPower) where
  factors : Factors
  terms : Terms
  comparison : Comparison
  factors_eq : 3 ≤ power.rank → factors = .nil
  terms_eq : 2 ≤ power.rank → terms = .nil
  comparison_eq : 1 ≤ power.rank → comparison = .none

def Tail.tokens {power : BindingPower} (tail : Tail power) : List Token :=
  tail.factors.tokens ++ (tail.terms.tokens ++ tail.comparison.tokens)

def Tail.empty (power : BindingPower) : Tail power :=
  ⟨.nil, .nil, .none, fun _ => rfl, fun _ => rfl, fun _ => rfl⟩

/-- A factor and a tail for a power stand at the beginning of tokens. -/
def Derives (power : BindingPower) (tokens rest : List Token) : Prop :=
  ∃ (factor : Factor) (tail : Tail power),
    tokens = factor.tokens ++ (tail.tokens ++ rest) ∧
    Readable factor.tokens ∧ Readable tail.tokens

/-- The tokens are those of an expression whose operators bind tighter than a
power. -/
def DerivedAt (power : BindingPower) (tokens : List Token) : Prop :=
  Derives power tokens []

/-- What the parser does before fewer tokens than a length. -/
structure Sound (file : String) (length : Nat) : Prop where
  expression : ∀ (power : BindingPower) (tree : Tree) {tokens : List Token}
    {depth : Nat},
    tokens.length < length → Ended tokens → Enough depth 2 tokens →
      Offends (DerivedAt power) tokens
          (reach depth (.expression power) (before file tree tokens)) ∨
        ∃ rest, Derives power tokens rest ∧
          Avoids (tighter power) rest ∧ Ended rest
  extension : ∀ (power : BindingPower) (tree : Tree)
    {tokens : List Token} {depth : Nat} (left : Expr Nat),
      tokens.length < length → Ended tokens → Enough depth 3 tokens →
      Recognized (@Tail.tokens power) (fun _ => Avoids (tighter power)) tokens
        (reach depth (.extension (tree.size + left.offset) power)
          (before file (tree.extend (left.nodes tree.size)) tokens))
  statement : ∀ (tree : Tree) {tokens : List Token} {depth : Nat},
    tokens.length < length → Ended tokens → Enough depth 2 tokens →
      Recognized Statement.tokens
        (fun statement rest => statement.StopsBefore rest) tokens
        (reach depth (.rule .statement) (before file tree tokens))
  sequence : ∀ (tree : Tree) {tokens : List Token} {depth : Nat},
    tokens.length < length → Ended tokens → Enough depth 3 tokens →
      Recognized Sequence.tokens (fun _ => Closes) tokens
        (reach depth (.rule .sequence) (before file tree tokens))
  statements : ∀ (tree : Tree) (node : Node) (head : NodeId)
    {tokens : List Token} {depth : Nat},
    tokens.length < length → Ended tokens → node.form.category = .statement →
    Enough depth 1 tokens →
      Recognized Statements.tokens (fun _ => Closes) tokens
        (reach depth (.sequenceAfter head tree.size)
          (before file (tree.extend [node]) tokens))

end TinyCompiler.Parser

/-! ## Samples of phrases -/

namespace TinyCompiler.Grammar

open TinyCompiler.Parser

theorem Terminal.kind_eq {kind : Token.Kind} (terminal : Terminal [kind]) :
    terminal.token.kind = kind :=
  List.mem_singleton.mp terminal.kind_mem

def Terminal.sample (kind : Token.Kind) : Terminal [kind] :=
  ⟨⟨kind, "0", 0⟩, List.mem_singleton_self kind⟩

def Factor.sample : Factor := .identifier (.sample .identifier)

def Exp.sample : Exp := .mk (.mk (.mk .sample .nil) .nil) .none

def Statement.sample : Statement :=
  .read (.sample .readWord) (.sample .identifier)

def Sequence.sample : Sequence := .mk .sample .nil

theorem Factor.readable_sample : Readable Factor.sample.tokens := by
  simp [sample, tokens, Terminal.kind_eq]

theorem Exp.readable_sample : Readable Exp.sample.tokens := by
  simp [sample, tokens, SimpleExp.tokens, Term.tokens, Factor.readable_sample,
    Factors.tokens, Terms.tokens, Comparison.tokens]

theorem Statement.readable_sample : Readable Statement.sample.tokens := by
  simp [sample, tokens, Terminal.kind_eq]

theorem Sequence.readable_sample : Readable Sequence.sample.tokens := by
  simp [sample, tokens, Statement.readable_sample, Statements.tokens]

section Readable

variable {test value : Exp} {body thenPart elsePart : Sequence}

@[simp] theorem Statement.readable_ifThen {ifWord thenWord endWord} :
    Readable (Statement.ifThen ifWord test thenWord thenPart endWord).tokens ↔
      Readable test.tokens ∧ Readable thenPart.tokens := by
  simp [tokens, Terminal.kind_eq]

@[simp] theorem Statement.readable_ifElse {ifWord thenWord elseWord endWord} :
    Readable (Statement.ifElse ifWord test thenWord thenPart elseWord elsePart
      endWord).tokens ↔
      Readable test.tokens ∧ Readable thenPart.tokens ∧
        Readable elsePart.tokens := by
  simp [tokens, Terminal.kind_eq]

@[simp] theorem Statement.readable_repeatUntil {repeatWord untilWord} :
    Readable (Statement.repeatUntil repeatWord body untilWord test).tokens ↔
      Readable body.tokens ∧ Readable test.tokens := by
  simp [tokens, Terminal.kind_eq]

@[simp] theorem Statement.readable_assign {target sign} :
    Readable (Statement.assign target sign value).tokens ↔
      Readable value.tokens := by
  simp [tokens, Terminal.kind_eq]

@[simp] theorem Statement.readable_read {readWord target} :
    Readable (Statement.read readWord target).tokens := by
  simp [tokens, Terminal.kind_eq]

@[simp] theorem Statement.readable_write {writeWord} :
    Readable (Statement.write writeWord value).tokens ↔
      Readable value.tokens := by
  simp [tokens, Terminal.kind_eq]

end Readable

def Factors.append : Factors → Factors → Factors
  | .nil, others => others
  | .cons operator next rest, others => .cons operator next (rest.append others)

theorem Factors.tokens_append : ∀ factors others : Factors,
    (factors.append others).tokens = factors.tokens ++ others.tokens
  | .nil, others => rfl
  | .cons operator next rest, others => by
      simp [Factors.append, Factors.tokens, rest.tokens_append others]

end TinyCompiler.Grammar

namespace TinyCompiler.Parser

open Grammar

/-! ## Expressions -/

section Expressions

variable {file : String} {length depth : Nat} {tree : Tree}
  {tokens rest : List Token} {power : BindingPower}

theorem Derives.split (hderives : Derives power tokens rest) :
    ∃ part, tokens = part ++ rest ∧ DerivedAt power part := by
  obtain ⟨factor, tail, rfl, hfactor, htail⟩ := hderives
  exact ⟨factor.tokens ++ tail.tokens,
    by simp, factor, tail, by simp, hfactor, htail⟩

theorem Derives.exp (hderives : Derives .default tokens rest) :
    ∃ exp : Exp, tokens = exp.tokens ++ rest ∧ Readable exp.tokens := by
  obtain ⟨factor, tail, rfl, hfactor, htail⟩ := hderives
  refine ⟨.mk (.mk (.mk factor tail.factors) tail.terms)
    tail.comparison, ?_, ?_⟩
  · simp [Exp.tokens, SimpleExp.tokens, Term.tokens, Tail.tokens]
  · simp only [Tail.tokens, readable_append] at htail
    simpa [Exp.tokens, SimpleExp.tokens, Term.tokens] using ⟨hfactor, htail⟩

theorem Derives.simpleExp (hderives : Derives .relational tokens rest) :
    ∃ simple : SimpleExp,
      tokens = simple.tokens ++ rest ∧ Readable simple.tokens := by
  obtain ⟨factor, tail, rfl, hfactor, htail⟩ := hderives
  have hcomparison := tail.comparison_eq (by decide)
  refine ⟨.mk (.mk factor tail.factors) tail.terms, ?_, ?_⟩
  · simp [SimpleExp.tokens, Term.tokens, Tail.tokens, hcomparison,
      Comparison.tokens]
  · simp only [Tail.tokens, readable_append] at htail
    simpa [SimpleExp.tokens, Term.tokens] using ⟨hfactor, htail.1, htail.2.1⟩

theorem Derives.term (hderives : Derives .additive tokens rest) :
    ∃ term : Term, tokens = term.tokens ++ rest ∧ Readable term.tokens := by
  obtain ⟨factor, tail, rfl, hfactor, htail⟩ := hderives
  have hcomparison := tail.comparison_eq (by decide)
  have hterms := tail.terms_eq (by decide)
  refine ⟨.mk factor tail.factors, ?_, ?_⟩
  · simp [Term.tokens, Tail.tokens, hterms, Terms.tokens, hcomparison,
      Comparison.tokens]
  · simp only [Tail.tokens, readable_append] at htail
    simpa [Term.tokens] using ⟨hfactor, htail.1⟩

theorem Derives.factor (hderives : Derives .multiplicative tokens rest) :
    ∃ factor : Factor,
      tokens = factor.tokens ++ rest ∧ Readable factor.tokens := by
  obtain ⟨factor, tail, rfl, hfactor, -⟩ := hderives
  have hcomparison := tail.comparison_eq (by decide)
  have hterms := tail.terms_eq (by decide)
  have hfactors := tail.factors_eq (by decide)
  refine ⟨factor, ?_, hfactor⟩
  simp [Tail.tokens, hfactors, Factors.tokens, hterms,
    Terms.tokens, hcomparison, Comparison.tokens]

theorem derivedAt_factor (power : BindingPower) {factor : Factor}
    (hreadable : Readable factor.tokens) : DerivedAt power factor.tokens := by
  refine ⟨factor, .empty power, ?_, hreadable, ?_⟩
  · simp [Tail.empty, Tail.tokens, Factors.tokens, Terms.tokens,
      Comparison.tokens]
  · simp [Tail.empty, Tail.tokens, Factors.tokens, Terms.tokens,
      Comparison.tokens]

/-- A number that is out of range is refused. -/
theorem primary_refuses {token : Token} {error : Text.IntegerError}
    (hkind : token.kind = .number)
    (hread : Text.readInt32 token.text.toList = .error error) :
    Refuses (token :: rest)
      (reach (depth + 1) (.rule .primary)
        (before file tree (token :: rest))) := by
  rw [reach_succ, attempt, follow, primary_before, hkind]
  dsimp only
  rw [hread]
  exact ⟨file, tree, token, rest, _, rfl, ⟨rfl, .number⟩, rfl⟩

/-- Behind an opening parenthesis stand an expression and a closing one. -/
theorem Sound.grouping (hsound : Sound file length) (power : BindingPower)
    (opening : Terminal [.openParen]) (hlength : rest.length < length)
    (hended : Ended rest) (henough : Enough depth 2 rest) :
    Offends (DerivedAt power) (opening.token :: rest)
        (reach (depth + 1) (.rule .grouping)
          (before file tree (opening.token :: rest))) ∨
      ∃ (factor : Factor) (behind : List Token),
        opening.token :: rest = factor.tokens ++ behind ∧
          Readable factor.tokens ∧ Ended behind := by
  have hgroup : ∀ (inner : Exp) (closing : Terminal [.closeParen]),
      Readable inner.tokens →
        Readable (Factor.group opening inner closing).tokens := by
    intro inner closing hreadable
    simpa [Factor.tokens, opening.kind_eq, closing.kind_eq] using hreadable
  rw [reach_succ, attempt, follow, Parser.grouping,
    bind_apply_of_ok (advance_before hended.ne_nil)]
  rcases hsound.expression .default tree hlength hended henough with
    hoffends | ⟨behind, hderives, havoids, hbehind⟩
  · refine .inl ((hoffends.bind _ _).within [opening.token]
      [(Terminal.sample .closeParen).token] rfl fun part hpart => ?_)
    obtain ⟨inner, rfl, hreadable⟩ := hpart.exp
    have hfactor :=
      derivedAt_factor power (hgroup inner (.sample .closeParen) hreadable)
    simpa [Factor.tokens] using hfactor
  · obtain ⟨inner, rfl, hreadable⟩ := hderives.exp
    have hinner :=
      inner.reached file tree hbehind.ne_nil havoids hreadable henough
    rw [bind_apply_of_ok hinner]
    rcases expect_cases .closeParen (by decide) hbehind with
      ⟨closing, behind, rfl, hclosed⟩ | ⟨-, hrefuses⟩
    · exact .inr ⟨.group opening inner closing, behind,
        by simp [Factor.tokens], hgroup inner closing hreadable, hclosed⟩
    · refine .inl ((Refuses.bind (expectWith .closeParen "expected `)`")
        (hrefuses _ _) _).offends (opening.token :: inner.tokens)
          [(Terminal.sample .closeParen).token] rfl ?_)
      exact derivedAt_factor power
        (hgroup inner (.sample .closeParen) hreadable)

theorem Sound.factor (hsound : Sound file length)
    (hlength : tokens.length ≤ length) (hended : Ended tokens)
    (henough : Enough depth 2 tokens) :
    Offends (DerivedAt power) tokens
        (reach depth (.expression power) (before file tree tokens)) ∨
      ∃ (factor : Factor) (rest : List Token), tokens = factor.tokens ++ rest ∧
        Readable factor.tokens ∧ Ended rest := by
  obtain ⟨depth, rfl⟩ := henough.exists_succ 2 hended.ne_nil (by decide)
  obtain ⟨token, behind, rfl⟩ := List.exists_cons_of_ne_nil hended.ne_nil
  rw [reach_succ, attempt, expression_before]
  have hsample : DerivedAt power Factor.sample.tokens :=
    derivedAt_factor power Factor.readable_sample
  cases hkind : token.kind with
  | number =>
      have hbehind := hended.tail (by rw [hkind]; decide)
      cases hread : Text.readInt32 token.text.toList with
      | error error =>
          exact .inl ((Refuses.bind _ (primary_refuses hkind hread) _).offends
            [] Factor.sample.tokens rfl hsample)
      | ok value =>
          refine .inr ⟨.number ⟨token, by simp [hkind]⟩, behind,
            rfl, ?_, hbehind⟩
          simpa [Factor.tokens, Readable] using fun _ => ⟨value, hread⟩
  | identifier =>
      have hbehind := hended.tail (by rw [hkind]; decide)
      refine .inr ⟨.identifier ⟨token, by simp [hkind]⟩, behind,
        rfl, ?_, hbehind⟩
      simp [Factor.tokens, Readable, hkind]
  | openParen =>
      have hbehind := hended.tail (by rw [hkind]; decide)
      exact (hsound.grouping power ⟨token, by simp [hkind]⟩ hlength hbehind
        (henough.behind 2 (by simp) (by decide))).imp_left (·.bind _ _)
  | _ =>
      exact .inl ((refuses_rejectCurrent _).offends []
        Factor.sample.tokens rfl hsample)

theorem Derives.reached (file : String) (tree : Tree)
    (hderives : Derives power tokens rest)
    (havoids : Avoids (tighter power) rest) (hrest : rest ≠ [])
    (henough : Enough depth 2 tokens) :
    ∃ expr, reach depth (.expression power) (before file tree tokens) =
      Reached file tree expr rest := by
  cases power with
  | default =>
      obtain ⟨exp, rfl, hreadable⟩ := hderives.exp
      exact ⟨_, exp.reached file tree hrest havoids hreadable henough⟩
  | relational =>
      obtain ⟨simple, rfl, hreadable⟩ := hderives.simpleExp
      exact ⟨_, (simple.extending .relational (by decide) hrest
        (havoids.mono (by decide)) hreadable
        henough).reached hrest havoids⟩
  | additive =>
      obtain ⟨term, rfl, hreadable⟩ := hderives.term
      exact ⟨_, (term.extending .additive (by decide) hrest hreadable
        henough).reached hrest
        havoids⟩
  | multiplicative =>
      obtain ⟨factor, rfl, hreadable⟩ := hderives.factor
      exact ⟨_, (factor.extending .multiplicative hrest hreadable
        henough).reached hrest havoids⟩

theorem mem_tighter_cases {kind : Token.Kind} (hkind : kind ∈ tighter power) :
    (kind ∈ products ∧ power.rank < 3) ∨ (kind ∈ sums ∧ power.rank < 2) ∨
      (kind ∈ relations ∧ power.rank < 1) := by
  revert hkind
  cases power <;> cases kind <;> decide

section Joins

variable {kinds : List Token.Kind} {other : BindingPower} {joiner : Joiner}
  {left : NodeId} {phrase : List Token → Prop} {part : List Token}

theorem join_offends (operator : Terminal kinds)
    (hkinds : ∀ kind ∈ kinds, kind ∈ operators) (htokens : tokens ≠ [])
    (hright : Offends phrase part
      (reach depth (.expression power) (before file tree tokens))) :
    Offends phrase part (reach (depth + 1) (.join .binary left power)
      (before file tree (operator.token :: tokens))) := by
  rw [reach_succ, attempt, binary, bind_apply_of_ok (advance_before htokens),
    operator.ofKind?_eq hkinds]
  exact hright.bind _ _

theorem extension_offends {token : Token}
    (hjoiner : Tables.standardJoiner token.kind = some (other, joiner))
    (hlt : power.rank < other.rank)
    (hjoin : Offends phrase part (reach depth (.join joiner left other)
      (before file tree (token :: tokens)))) :
    Offends phrase part
      (reach (depth + 1) (.extension left power)
        (before file tree (token :: tokens))) := by
  rw [reach_succ, attempt, extension_before, hjoiner]
  dsimp only
  rw [if_pos hlt]
  exact hjoin.bind _ _

/-- A comparison that another one follows is refused there. -/
theorem comparison_refuses {expr : Expr Nat} {start : Parser}
    (hjoin : reach depth (.join .binary left power) start =
      Reached file tree expr rest)
    (hrest : rest ≠ []) (hfollows : ¬ Avoids relations rest) :
    Refuses rest (reach (depth + 1) (.join .comparison left power) start) := by
  obtain ⟨token, behind, rfl⟩ := List.exists_cons_of_ne_nil hrest
  have hpower :
      (before file (tree.extend (expr.nodes tree.size))
      (token :: behind)).power =
      .relational := by
    have hkind : token.kind ∈ relations := by
      simpa [Avoids] using hfollows
    rw [power_before, joiner_of_mem_relations hkind]
    rfl
  rw [reach_succ, attempt, comparison, bind_apply_of_ok hjoin,
    bind_apply_of_ok (get_apply _), if_pos hpower]
  exact refuses_rejectCurrent _

end Joins

/-! ### Longer tails -/

theorem derived_product (operator : Terminal products) (hrank : power.rank < 3)
    {part : List Token} (hpart : DerivedAt .multiplicative part)
    {tail : Tail power} (htail : Readable tail.tokens) :
    Derived (@Tail.tokens power) (operator.token :: (part ++ tail.tokens)) := by
  obtain ⟨factor, rfl, hreadable⟩ := hpart.factor
  refine ⟨{ tail with
    factors := .cons operator factor tail.factors
    factors_eq := fun hle => absurd hrank (Nat.not_lt.mpr hle) }, ?_, ?_⟩
  · simp [Tail.tokens, Factors.tokens]
  · simpa [hreadable, htail] using readable_terminal operator (by decide)

/-- What follows the right operand of a sum and binds as tight as a product
belongs to that operand. -/
theorem derived_sum (operator : Terminal sums) (hrank : power.rank < 2)
    {part : List Token} (hpart : DerivedAt .additive part) {tail : Tail power}
    (htail : Readable tail.tokens) :
    Derived (@Tail.tokens power) (operator.token :: (part ++ tail.tokens)) := by
  obtain ⟨⟨first, factors⟩, rfl, hreadable⟩ := hpart.term
  refine ⟨⟨.nil,
    .cons operator (.mk first (factors.append tail.factors)) tail.terms,
    tail.comparison, fun _ => rfl, fun hle => absurd hrank (Nat.not_lt.mpr hle),
    tail.comparison_eq⟩, ?_, ?_⟩
  · simp [Tail.tokens, Factors.tokens, Terms.tokens, Term.tokens,
      Factors.tokens_append]
  · simpa [hreadable, htail] using readable_terminal operator (by decide)

theorem derived_relation (power : BindingPower) (operator : Terminal relations)
    (hrank : power.rank < 1) {part : List Token}
    (hpart : DerivedAt .relational part) :
    Derived (@Tail.tokens power) (operator.token :: part) := by
  obtain ⟨simple, rfl, hreadable⟩ := hpart.simpleExp
  refine ⟨⟨.nil, .nil, .some operator simple, fun _ => rfl, fun _ => rfl,
    fun hle => absurd hrank (Nat.not_lt.mpr hle)⟩, ?_, ?_⟩
  · simp [Tail.tokens, Factors.tokens, Terms.tokens, Comparison.tokens]
  · simpa [hreadable] using readable_terminal operator (by decide)

/-- An operator that binds tighter is read with its right operand, and then the
operation is extended, or a token is refused. -/
theorem Sound.joined (hsound : Sound file length) (left : Expr Nat)
    {kinds : List Token.Kind} (operator : Terminal kinds)
    (hkinds : ∀ kind ∈ kinds, kind ∈ operators)
    {other : BindingPower}
    (hjoiner : Tables.standardJoiner operator.token.kind =
      some (other, .binary))
    (hrank : power.rank < other.rank) (hlength : tokens.length < length)
    (hended : Ended tokens)
    (henough : Enough (depth + 3) 3 (operator.token :: tokens))
    (hlonger : ∀ (part : List Token) (tail : Tail power), DerivedAt other part →
      Readable tail.tokens →
        Derived (@Tail.tokens power)
          (operator.token :: (part ++ tail.tokens))) :
    Recognized (@Tail.tokens power) (fun _ => Avoids (tighter power))
      (operator.token :: tokens)
      (reach (depth + 3) (.extension (tree.size + left.offset) power)
        (before file (tree.extend (left.nodes tree.size))
          (operator.token :: tokens))) := by
  have hoperand : Enough (depth + 1) 2 tokens :=
    henough.behind 2 (by simp) (by decide)
  rcases hsound.expression other (tree.extend (left.nodes tree.size)) hlength
    hended hoperand with hoffends | ⟨rest, hderives, havoids, hrest⟩
  · refine .inl ((extension_offends hjoiner hrank
      (join_offends operator hkinds hended.ne_nil hoffends)).within
        [operator.token] [] rfl ?_)
    intro part hpart
    exact hlonger part (.empty power) hpart readable_nil
  · obtain ⟨right, hright⟩ :=
      hderives.reached file (tree.extend (left.nodes tree.size)) havoids
      hrest.ne_nil hoperand
    obtain ⟨part, rfl, hpart⟩ := hderives.split
    have hpositive : 0 < part.length := by
      obtain ⟨factor, tail, rfl, -⟩ := hpart
      have hlength := List.length_pos_iff.mpr factor.tokens_ne_nil
      rw [List.length_append]
      omega
    have hjoin := join_reached operator hkinds left right hended.ne_nil hright
    rw [extension_joins hjoiner hrank hjoin]
    simp only [List.length_append] at hlength
    rcases hsound.extension power tree (operator.join left right)
      (by omega) hrest
      (henough.behind 1 (by simp +arith) (by decide)) with
        hoffends | ⟨tail, last, rfl, htail, havoids, hlast⟩
    · refine .inl (hoffends.within (operator.token :: part) [] rfl ?_)
      rintro _ ⟨tail, rfl, htail⟩
      rw [List.append_nil]
      exact hlonger part tail hpart htail
    · obtain ⟨longer, hlonger, hreadable⟩ := hlonger part tail hpart htail
      refine .inr ⟨longer, last, ?_, hlonger ▸ hreadable, havoids, hlast⟩
      rw [← hlonger]
      simp

/-- A comparison is read with its right operand if no other one follows. -/
theorem Sound.compared (hsound : Sound file length) (left : Expr Nat)
    (operator : Terminal relations) (hrank : power.rank < 1)
    (hlength : tokens.length < length) (hended : Ended tokens)
    (henough : Enough (depth + 3) 3 (operator.token :: tokens)) :
    Recognized (@Tail.tokens power) (fun _ => Avoids (tighter power))
      (operator.token :: tokens)
      (reach (depth + 3) (.extension (tree.size + left.offset) power)
        (before file (tree.extend (left.nodes tree.size))
          (operator.token :: tokens))) := by
  have hjoiner := joiner_of_mem_relations operator.kind_mem
  have hoperand : Enough depth 2 tokens :=
    henough.behind 3 (by simp) (by decide)
  rcases hsound.expression .relational (tree.extend (left.nodes tree.size))
    hlength hended hoperand with hoffends | ⟨rest, hderives, havoids, hrest⟩
  · have hcomparison : Offends (DerivedAt .relational) tokens
        (reach (depth + 2)
          (.join .comparison (tree.size + left.offset) .relational)
          (before file (tree.extend (left.nodes tree.size))
            (operator.token :: tokens))) := by
      rw [reach_succ, attempt, comparison]
      exact (join_offends operator (by decide) hended.ne_nil hoffends).bind _ _
    refine .inl ((extension_offends hjoiner hrank hcomparison).within
      [operator.token] [] rfl ?_)
    intro part hpart
    rw [List.append_nil]
    exact derived_relation power operator hrank hpart
  · obtain ⟨right, hright⟩ :=
      hderives.reached file (tree.extend (left.nodes tree.size)) havoids
      hrest.ne_nil hoperand
    obtain ⟨part, rfl, hpart⟩ := hderives.split
    have hderived := derived_relation power operator hrank hpart
    have hjoin :=
      join_reached operator (by decide) left right hended.ne_nil hright
    by_cases hlast : Avoids relations rest
    · obtain ⟨tail, htail, hreadable⟩ := hderived
      refine .inr ⟨tail, rest, ?_, htail ▸ hreadable, ?_, hrest⟩
      · rw [← htail]
        rfl
      · cases power with
        | default =>
            change Avoids operators rest
            rw [operators, List.append_assoc]
            exact hlast.append havoids
        | _ => exact absurd hrank (by decide)
    · refine .inl (extension_offends hjoiner hrank ?_)
      exact (comparison_refuses hjoin hrest.ne_nil hlast).offends
        (operator.token :: part) [] rfl
        (by simpa using hderived)

/-- Behind its first factor an expression is extended as far as a tail goes, or
a token is refused. -/
theorem Sound.extended (hsound : Sound file length) (left : Expr Nat)
    (hlength : tokens.length ≤ length) (hended : Ended tokens)
    (henough : Enough depth 3 tokens) :
    Recognized (@Tail.tokens power) (fun _ => Avoids (tighter power)) tokens
      (reach depth (.extension (tree.size + left.offset) power)
        (before file (tree.extend (left.nodes tree.size)) tokens)) := by
  obtain ⟨depth, rfl⟩ := henough.exists_succ 3 hended.ne_nil (by decide)
  obtain ⟨token, behind, rfl⟩ := List.exists_cons_of_ne_nil hended.ne_nil
  by_cases hkind : token.kind ∈ tighter power
  · have hbehind : Ended behind := by
      refine hended.tail fun hend => ?_
      rw [hend] at hkind
      revert hkind
      cases power <;> decide
    rcases mem_tighter_cases hkind
      with ⟨hkind, hrank⟩ | ⟨hkind, hrank⟩ | ⟨hkind, hrank⟩
    · exact hsound.joined left ⟨token, hkind⟩ (by decide)
        (joiner_of_mem_products hkind) hrank
        hlength hbehind henough fun _ _ hpart htail =>
          derived_product _ hrank hpart htail
    · exact hsound.joined left ⟨token, hkind⟩ (by decide)
        (joiner_of_mem_sums hkind) hrank
        hlength hbehind henough fun _ _ hpart htail =>
          derived_sum _ hrank hpart htail
    · exact hsound.compared left ⟨token, hkind⟩ hrank hlength hbehind henough
  · refine .inr ⟨.empty power, token :: behind, rfl, readable_nil, ?_, hended⟩
    intro other hother
    obtain rfl := Option.some.inj hother
    exact hkind

theorem Sound.expressed (hsound : Sound file length)
    (hlength : tokens.length ≤ length) (hended : Ended tokens)
    (henough : Enough depth 2 tokens) :
    Offends (DerivedAt power) tokens
        (reach depth (.expression power) (before file tree tokens)) ∨
      ∃ rest, Derives power tokens rest ∧ Avoids (tighter power) rest ∧
        Ended rest := by
  rcases hsound.factor hlength hended henough with
    hoffends | ⟨factor, rest, rfl, hreadable, hrest⟩
  · exact .inl hoffends
  · obtain ⟨less, hless, hextending⟩ :=
      factor.extending power hrest.ne_nil hreadable henough
    have hpos := List.length_pos_iff.mpr factor.tokens_ne_nil
    rw [hextending]
    rcases hsound.extension power tree factor.expr
      (by rw [List.length_append] at hlength; omega) hrest hless with
        hoffends | ⟨tail, last, rfl, htail, havoids, hlast⟩
    · refine .inl (hoffends.within factor.tokens [] rfl ?_)
      rintro _ ⟨tail, rfl, htail⟩
      exact ⟨factor, tail, rfl, hreadable, htail⟩
    · exact .inr ⟨last, ⟨factor, tail, rfl, hreadable, htail⟩, havoids, hlast⟩

end Expressions

/-! ## Statements -/

section Statements

variable {file : String} {length depth : Nat} {tree : Tree}
  {tokens rest : List Token}

theorem derived_of_eq {tokensOf : σ → List Token} (derivation : σ)
    (htokens : tokens = tokensOf derivation)
    (hreadable : Readable (tokensOf derivation)) :
    Derived tokensOf tokens :=
  ⟨derivation, htokens, htokens ▸ hreadable⟩

section Last

variable (front : List Token) {behind : List Token}
  (htokens : tokens = front ++ behind) (hended : Ended behind)
include htokens hended

/-- A statement ends with a token of one kind, or the token there is refused. -/
theorem recognized_terminal {kind : Token.Kind} {first : Action Token}
    (hfirst : first = expect kind ∨ ∃ detail, first = expectWith kind detail)
    (hkind : kind ≠ .endOfInput) (statementOf : Terminal [kind] → Statement)
    (hstatement : ∀ last, (statementOf last).tokens = front ++ [last.token] ∧
      Readable (statementOf last).tokens ∧ ∀ rest,
        (statementOf last).StopsBefore rest)
    (next : Token → Action NodeId) :
    Recognized Statement.tokens
      (fun statement rest => statement.StopsBefore rest) tokens
      ((first >>= next) (before file tree behind)) := by
  rcases expect_cases kind hkind hended with
    ⟨last, rest, rfl, hrest⟩ | ⟨hexpect, hexpectWith⟩
  · obtain ⟨hlast, hreadable, hstops⟩ := hstatement last
    exact .inr ⟨statementOf last, rest,
      by simp [htokens, hlast], hreadable, hstops rest, hrest⟩
  · obtain ⟨hlast, hreadable, -⟩ := hstatement (.sample kind)
    have hrefuses : Refuses behind (first (before file tree behind)) := by
      rcases hfirst with rfl | ⟨detail, rfl⟩
      · exact hexpect tree
      · exact hexpectWith tree detail
    exact .inl ((hrefuses.bind first next).offends front
      [(Terminal.sample kind).token] htokens
      (derived_of_eq (statementOf (.sample kind)) hlast.symm hreadable))

/-- A statement ends with an expression, or a token is refused. -/
theorem Sound.recognized_exp (hsound : Sound file length)
    (hlength : behind.length < length)
    (henough : Enough depth 2 behind) (statementOf : Exp → Statement)
    (hstatement : ∀ last, (statementOf last).tokens = front ++ last.tokens ∧
      (Readable last.tokens → Readable (statementOf last).tokens))
    (next : NodeId → Action NodeId) :
    Recognized Statement.tokens
      (fun statement rest => statement.StopsBefore rest) tokens
      ((reach depth (.expression .default) >>= next)
        (before file tree behind)) := by
  rcases hsound.expression .default tree hlength hended henough with
    hoffends | ⟨rest, hderives, havoids, hrest⟩
  · refine .inl
      ((hoffends.bind _ next).within front [] htokens fun part hpart => ?_)
    obtain ⟨last, rfl, hlast⟩ := hpart.exp
    obtain ⟨hsame, hreadable⟩ := hstatement last
    exact derived_of_eq (statementOf last) (by simp [hsame]) (hreadable hlast)
  · obtain ⟨last, rfl, hlast⟩ := hderives.exp
    obtain ⟨hsame, hreadable⟩ := hstatement last
    exact .inr ⟨statementOf last, rest,
      by simp [htokens, hsame], hreadable hlast,
      (statementOf last).stopsBefore_of_avoids havoids, hrest⟩

end Last

theorem Sound.writeStatement (hsound : Sound file length)
    (writeWord : Terminal [.writeWord]) (hlength : tokens.length < length)
    (hended : Ended tokens) (henough : Enough depth 2 tokens) :
    Recognized Statement.tokens
      (fun statement rest => statement.StopsBefore rest)
      (writeWord.token :: tokens)
      (writeStatement (reach depth)
        (before file tree (writeWord.token :: tokens))) := by
  unfold Parser.writeStatement
  rw [bind_apply_of_ok (advance_before hended.ne_nil)]
  refine Sound.recognized_exp [writeWord.token] rfl hended hsound
    hlength henough
    (.write writeWord) (fun value => ⟨rfl, fun hvalue => ?_⟩) _
  simpa using hvalue

theorem Sound.readStatement (readWord : Terminal [.readWord])
    (hended : Ended tokens) :
    Recognized Statement.tokens
      (fun statement rest => statement.StopsBefore rest)
      (readWord.token :: tokens)
      (readStatement (before file tree (readWord.token :: tokens))) := by
  unfold Parser.readStatement
  rw [bind_apply_of_ok (advance_before hended.ne_nil)]
  exact recognized_terminal [readWord.token] rfl hended
    (.inr ⟨_, rfl⟩) (by decide)
    (.read readWord) (fun target => ⟨rfl, by simp, fun rest => trivial⟩) _

theorem Sound.assignment (hsound : Sound file length)
    (target : Terminal [.identifier]) (hlength : tokens.length < length)
    (hended : Ended tokens) (henough : Enough depth 2 tokens) :
    Recognized Statement.tokens
      (fun statement rest => statement.StopsBefore rest)
      (target.token :: tokens)
      (assignment (reach depth)
        (before file tree (target.token :: tokens))) := by
  unfold Parser.assignment
  rw [bind_apply_of_ok (expect_before target hended.ne_nil)]
  rcases expect_cases .assignment (by decide) hended with
    ⟨sign, rest, rfl, hrest⟩ | ⟨-, hrefuses⟩
  · rw [bind_apply_of_ok (expectWith_before sign _ hrest.ne_nil)]
    refine Sound.recognized_exp [target.token, sign.token] rfl hrest hsound
      (by simp at hlength; omega) (henough.behind 0 (by simp) (by decide))
      (.assign target sign) (fun value => ⟨rfl, fun hvalue => ?_⟩) _
    simpa using hvalue
  · refine .inl
      ((Refuses.bind
      (expectWith .assignment "expected `:=` after assignment target")
      (hrefuses _ _) _).offends [target.token]
        ((Terminal.sample .assignment).token :: Exp.sample.tokens) rfl ?_)
    exact derived_of_eq (.assign target (.sample .assignment) .sample) rfl
      (by simpa using Exp.readable_sample)

theorem Sound.repeatStatement (hsound : Sound file length)
    (repeatWord : Terminal [.repeatWord]) (hlength : tokens.length < length)
    (hended : Ended tokens) (henough : Enough depth 3 tokens) :
    Recognized Statement.tokens
      (fun statement rest => statement.StopsBefore rest)
      (repeatWord.token :: tokens)
      (repeatStatement (reach depth)
        (before file tree (repeatWord.token :: tokens))) := by
  unfold Parser.repeatStatement
  rw [bind_apply_of_ok (advance_before hended.ne_nil)]
  -- A body that is read may be followed by any test.
  have hrest : ∀ body : Sequence,
      Readable body.tokens → Derived Statement.tokens
      (repeatWord.token :: (body.tokens ++
        (Terminal.sample .untilWord).token :: Exp.sample.tokens)) := by
    intro body hbody
    exact derived_of_eq
      (.repeatUntil repeatWord body (.sample .untilWord) .sample) rfl
      (by simpa using ⟨hbody, Exp.readable_sample⟩)
  rcases hsound.sequence tree hlength hended henough with
    hoffends | ⟨body, behind, rfl, hbody, hcloses, hbehind⟩
  · refine .inl ((hoffends.bind _ _).within [repeatWord.token]
      ((Terminal.sample .untilWord).token :: Exp.sample.tokens) rfl ?_)
    rintro _ ⟨body, rfl, hbody⟩
    exact hrest body hbody
  rw [bind_apply_of_ok (body.reached file tree hcloses hbody henough)]
  rcases expect_cases .untilWord (by decide) hbehind with
    ⟨untilWord, last, rfl, hlast⟩ | ⟨hrefuses, -⟩
  · rw [bind_apply_of_ok (expect_before untilWord hlast.ne_nil)]
    refine Sound.recognized_exp
      (repeatWord.token :: (body.tokens ++ [untilWord.token]))
      (by simp) hlast hsound (by simp at hlength; omega)
      (henough.behind 0 (by simp +arith) (by decide))
        (.repeatUntil repeatWord body untilWord)
      (fun test => ⟨by simp [Statement.tokens], fun htest => ?_⟩) _
    simpa using ⟨hbody, htest⟩
  · exact .inl (((hrefuses _).bind (expect .untilWord) _).offends
      (repeatWord.token :: body.tokens) _ rfl (hrest body hbody))

/-- Behind the first part of an `if` stands its end, or another part and the
end. -/
theorem Sound.ifEnd (hsound : Sound file length)
    (ifWord : Terminal [.ifWord]) {test : Exp}
    (thenWord : Terminal [.thenWord]) {thenPart : Sequence}
    (htest : Readable test.tokens)
    (hthen : Readable thenPart.tokens)
    (htokens : tokens =
      ifWord.token ::
        (test.tokens ++ thenWord.token :: (thenPart.tokens ++ rest)))
    (hlength : rest.length ≤ length) (hended : Ended rest)
    (henough : Enough depth 3 rest)
    (next : Option NodeId → Token → Action NodeId) :
    Recognized Statement.tokens
        (fun statement rest => statement.StopsBefore rest) tokens ((do
      let elsePart ←
        if (← get).kind = .elseWord then do
          let _ ← advance
          let part ← reach depth (.rule .sequence)
          pure (some part)
        else pure none
      let endWord ← expect .endWord
      next elsePart endWord : Action NodeId) (before file tree rest)) := by
  rw [bind_apply_of_ok (get_apply _)]
  obtain ⟨token, behind, rfl⟩ := List.exists_cons_of_ne_nil hended.ne_nil
  rw [kind_before]
  by_cases helse : token.kind = .elseWord
  · have hbehind := hended.tail (by rw [helse]; decide)
    have helseEnough : Enough depth 3 behind :=
      henough.behind 0 (by simp) (by decide)
    obtain ⟨elseWord, rfl⟩ : ∃ elseWord : Terminal [.elseWord],
        elseWord.token = token :=
      ⟨⟨token, by simp [helse]⟩, rfl⟩
    rw [if_pos helse, bind_apply_of_ok (advance_before hbehind.ne_nil)]
    rcases hsound.sequence tree hlength hbehind helseEnough with
      hoffends | ⟨elsePart, last, rfl, helsePart, hcloses, hlast⟩
    · refine .inl
        ((hoffends.bind _ _).within
        (ifWord.token :: (test.tokens ++ thenWord.token ::
        (thenPart.tokens ++ [elseWord.token])))
          [(Terminal.sample .endWord).token]
        (by simp [htokens]) ?_)
      rintro _ ⟨elsePart, rfl, helsePart⟩
      exact derived_of_eq
        (.ifElse ifWord test thenWord thenPart elseWord elsePart
          (.sample .endWord))
        (by simp [Statement.tokens]) (by simpa using ⟨htest, hthen, helsePart⟩)
    rw [bind_apply_of_ok
      (elsePart.reached file tree hcloses helsePart helseEnough),
      bind_apply_of_ok (pure_apply _ _)]
    refine recognized_terminal
      (ifWord.token :: (test.tokens ++ thenWord.token ::
      (thenPart.tokens ++ elseWord.token :: elsePart.tokens)))
        (by simp [htokens]) hlast (.inl rfl)
      (by decide) (.ifElse ifWord test thenWord thenPart elseWord elsePart)
      (fun endWord => ⟨by simp [Statement.tokens], ?_, fun rest => trivial⟩) _
    simpa using ⟨htest, hthen, helsePart⟩
  · rw [if_neg helse, bind_apply_of_ok (pure_apply _ _)]
    refine recognized_terminal
      (ifWord.token :: (test.tokens ++ thenWord.token ::
      thenPart.tokens)) (by simp [htokens]) hended (.inl rfl) (by decide)
      (.ifThen ifWord test thenWord thenPart)
      (fun endWord => ⟨by simp [Statement.tokens], ?_, fun rest => trivial⟩) _
    simpa using ⟨htest, hthen⟩

theorem Sound.ifStatement (hsound : Sound file length)
    (ifWord : Terminal [.ifWord]) (hlength : tokens.length < length)
    (hended : Ended tokens) (henough : Enough depth 2 tokens) :
    Recognized Statement.tokens
      (fun statement rest => statement.StopsBefore rest)
      (ifWord.token :: tokens)
      (ifStatement (reach depth)
        (before file tree (ifWord.token :: tokens))) := by
  unfold Parser.ifStatement
  rw [bind_apply_of_ok (advance_before hended.ne_nil)]
  -- A test that is read may be followed by any part.
  have hrest : ∀ test : Exp, Readable test.tokens → Derived Statement.tokens
      (ifWord.token :: (test.tokens ++ (Terminal.sample .thenWord).token ::
        (Sequence.sample.tokens ++ [(Terminal.sample .endWord).token]))) := by
    intro test htest
    exact derived_of_eq
      (.ifThen ifWord test (.sample .thenWord) .sample (.sample .endWord)) rfl
      (by simpa using ⟨htest, Sequence.readable_sample⟩)
  rcases hsound.expression .default tree hlength hended henough with
    hoffends | ⟨rest, hderives, havoids, hbehind⟩
  · refine .inl
      ((hoffends.bind _ _).within [ifWord.token]
      ((Terminal.sample .thenWord).token ::
      (Sequence.sample.tokens ++ [(Terminal.sample .endWord).token])) rfl
        fun part hpart => ?_)
    obtain ⟨test, rfl, htest⟩ := hpart.exp
    rw [List.append_nil]
    exact hrest test htest
  obtain ⟨test, rfl, htest⟩ := hderives.exp
  rw [bind_apply_of_ok
    (test.reached file tree hbehind.ne_nil havoids htest henough)]
  rcases expect_cases .thenWord (by decide) hbehind with
    ⟨thenWord, behind, rfl, hthenPart⟩ | ⟨hrefuses, -⟩
  swap
  · exact .inl
      (((hrefuses _).bind (expect .thenWord) _).offends
      (ifWord.token :: test.tokens) _
      rfl (hrest test htest))
  rw [bind_apply_of_ok (expect_before thenWord hthenPart.ne_nil)]
  have hthenEnough : Enough depth 3 behind :=
    henough.behind 0 (by simp +arith) (by decide)
  rcases hsound.sequence (tree.extend (test.expr.nodes tree.size))
    (by simp at hlength; omega) hthenPart hthenEnough with
      hoffends | ⟨thenPart, close, rfl, hthen, hcloses, hclose⟩
  · refine .inl ((hoffends.bind _ _).within
      (ifWord.token :: (test.tokens ++ [thenWord.token]))
        [(Terminal.sample .endWord).token]
      (by simp) ?_)
    rintro _ ⟨thenPart, rfl, hthen⟩
    exact derived_of_eq
      (.ifThen ifWord test thenWord thenPart (.sample .endWord))
      (by simp [Statement.tokens]) (by simpa using ⟨htest, hthen⟩)
  rw [bind_apply_of_ok (thenPart.reached file _ hcloses hthen hthenEnough)]
  exact hsound.ifEnd ifWord thenWord htest hthen rfl
    (by simp at hlength; omega) hclose
    (henough.behind 0 (by simp +arith) (by decide)) _

theorem Sound.stated (hsound : Sound file length) (tree : Tree)
    (hlength : tokens.length ≤ length) (hended : Ended tokens)
    (henough : Enough depth 2 tokens) :
    Recognized Statement.tokens
      (fun statement rest => statement.StopsBefore rest) tokens
      (reach depth (.rule .statement) (before file tree tokens)) := by
  obtain ⟨depth, rfl⟩ := henough.exists_succ 2 hended.ne_nil (by decide)
  obtain ⟨token, behind, rfl⟩ := List.exists_cons_of_ne_nil hended.ne_nil
  have hinner : Enough depth 3 behind := henough.behind 2 (by simp) (by decide)
  have hnext : ∀ kind, token.kind = kind → kind ≠ .endOfInput →
      Ended behind ∧ ∃ terminal : Terminal [kind], terminal.token = token := by
    rintro kind hkind hne
    exact ⟨hended.tail (by rwa [hkind]), ⟨token, by simp [hkind]⟩, rfl⟩
  cases hkind : token.kind with
  | ifWord =>
      obtain ⟨hbehind, terminal, rfl⟩ := hnext _ hkind (by decide)
      rw [reach_statement terminal rfl]
      exact hsound.ifStatement terminal hlength hbehind
        (hinner.here 0 (by decide))
  | repeatWord =>
      obtain ⟨hbehind, terminal, rfl⟩ := hnext _ hkind (by decide)
      rw [reach_statement terminal rfl]
      exact hsound.repeatStatement terminal hlength hbehind hinner
  | identifier =>
      obtain ⟨hbehind, terminal, rfl⟩ := hnext _ hkind (by decide)
      rw [reach_statement terminal rfl]
      exact hsound.assignment terminal hlength hbehind
        (hinner.here 0 (by decide))
  | readWord =>
      obtain ⟨hbehind, terminal, rfl⟩ := hnext _ hkind (by decide)
      rw [reach_statement terminal rfl]
      exact Sound.readStatement terminal hbehind
  | writeWord =>
      obtain ⟨hbehind, terminal, rfl⟩ := hnext _ hkind (by decide)
      rw [reach_statement terminal rfl]
      exact hsound.writeStatement terminal hlength hbehind
        (hinner.here 0 (by decide))
  | _ =>
      rw [reach_succ, attempt, follow, statement_before, hkind]
      exact .inl ((refuses_rejectCurrent _).offends []
        Statement.sample.tokens rfl
        (derived_of_eq .sample rfl Statement.readable_sample))

theorem Sound.sequenced (hsound : Sound file length)
    (hlength : tokens.length ≤ length) (hended : Ended tokens)
    (henough : Enough depth 3 tokens) :
    Recognized Sequence.tokens (fun _ => Closes) tokens
      (reach depth (.rule .sequence) (before file tree tokens)) := by
  obtain ⟨depth, rfl⟩ := henough.exists_succ 1 hended.ne_nil (by decide)
  have hfirstEnough : Enough depth 2 tokens := henough.here 1 (by decide)
  rw [reach_succ, attempt, follow, Parser.sequence]
  rcases hsound.stated tree hlength hended hfirstEnough with
    hoffends | ⟨first, rest, rfl, hfirst, hstops, hrest⟩
  · refine .inl ((hoffends.bind _ _).within [] [] rfl ?_)
    rintro _ ⟨first, rfl, hfirst⟩
    exact derived_of_eq (.mk first .nil)
      (by simp [Sequence.tokens, Statements.tokens])
      (by simpa [Sequence.tokens, Statements.tokens] using hfirst)
  rw [bind_apply_of_ok
    (first.reached file tree hrest.ne_nil hstops hfirst hfirstEnough)]
  have hpos := List.length_pos_iff.mpr first.tokens_ne_nil
  rw [List.length_append] at hlength
  have hlast := hsound.statements (tree.extend (first.partNodes tree.size))
    (first.node tree.size none) (tree.size + first.offset) (by omega) hrest
    (first.form_category tree.size)
    (henough.behind 1 (by rw [List.length_append]; omega) (by decide))
  simp only [Tree.extend_extend, Tree.size_extend,
    Statement.length_partNodes] at hlast
  rcases hlast
    with hoffends | ⟨statements, last, rfl, hstatements, hcloses, hlast⟩
  · refine .inl (hoffends.within first.tokens [] rfl ?_)
    rintro _ ⟨statements, rfl, hstatements⟩
    exact derived_of_eq (.mk first statements) (by simp [Sequence.tokens])
      (by simpa [Sequence.tokens] using ⟨hfirst, hstatements⟩)
  · refine .inr ⟨.mk first statements, last, ?_, ?_, hcloses, hlast⟩
    · simp [Sequence.tokens]
    · simpa [Sequence.tokens] using ⟨hfirst, hstatements⟩

theorem Sound.continued (hsound : Sound file length) {node : Node}
    {head : NodeId} (hlength : tokens.length ≤ length) (hended : Ended tokens)
    (hcategory : node.form.category = .statement)
    (henough : Enough depth 1 tokens) :
    Recognized Statements.tokens (fun _ => Closes) tokens
      (reach depth (.sequenceAfter head tree.size)
        (before file (tree.extend [node]) tokens)) := by
  obtain ⟨depth, rfl⟩ := henough.exists_succ 1 hended.ne_nil (by decide)
  obtain ⟨token, behind, rfl⟩ := List.exists_cons_of_ne_nil hended.ne_nil
  rw [reach_succ, attempt, sequenceAfter_before]
  by_cases hends : token.kind.endsSequence
  · exact .inr ⟨.nil, token :: behind, rfl, readable_nil,
      ⟨token, behind, rfl, hends⟩, hended⟩
  rw [if_neg hends]
  rcases expect_cases .semicolon (by decide) hended with
    ⟨semicolon, rest, hsame, hrest⟩ | ⟨hrefuses, -⟩
  swap
  · exact .inl (((hrefuses _).bind (expect .semicolon) _).offends [] [] rfl
      (derived_of_eq .nil rfl readable_nil))
  rw [hsame] at henough hlength ⊢
  have hnextEnough : Enough depth 2 rest :=
    henough.behind 1 (by simp) (by decide)
  have hreadable : ∀ (next : Statement) (statements : Statements),
      Readable next.tokens →
      Readable statements.tokens →
        Readable (Statements.cons semicolon next statements).tokens := by
    intro next statements hnext hstatements
    simpa [Statements.tokens, semicolon.kind_eq] using ⟨hnext, hstatements⟩
  rw [bind_apply_of_ok (expect_before semicolon hrest.ne_nil)]
  rcases hsound.statement (tree.extend [node]) hlength hrest hnextEnough with
    hoffends | ⟨next, last, rfl, hnext, hstops, hlast⟩
  · refine .inl ((hoffends.bind _ _).within [semicolon.token] [] rfl ?_)
    rintro _ ⟨next, rfl, hnext⟩
    exact derived_of_eq (.cons semicolon next .nil)
      (by simp [Statements.tokens])
      (hreadable next .nil hnext readable_nil)
  rw [bind_apply_of_ok
    (next.reached file _ hlast.ne_nil hstops hnext hnextEnough),
    bind_apply_of_ok (next.link_before hcategory)]
  simp only [List.length_cons, List.length_append] at hlength
  have hpos := List.length_pos_iff.mpr next.tokens_ne_nil
  have hfinal := hsound.statements (tree.extend ({ node with
      sibling := some (tree.size + 1 + next.offset) } ::
        next.partNodes (tree.size + 1)))
    (next.node (tree.size + 1) none) head (by omega) hlast
    (next.form_category _) (henough.behind 1 (by simp +arith) (by decide))
  rw [next.size_linked tree node] at hfinal
  rcases hfinal
    with hoffends | ⟨statements, final, rfl, hstatements, hcloses, hfinal⟩
  · refine .inl (hoffends.within (semicolon.token :: next.tokens) [] rfl ?_)
    rintro _ ⟨statements, rfl, hstatements⟩
    exact derived_of_eq (.cons semicolon next statements)
      (by simp [Statements.tokens])
      (hreadable next statements hnext hstatements)
  · exact .inr
      ⟨.cons semicolon next statements, final, by simp [Statements.tokens],
      hreadable next statements hnext hstatements, hcloses, hfinal⟩

end Statements

/-- Before tokens that come to an end of input the parser finds derivations. -/
theorem sound (file : String) (length : Nat) : Sound file length := by
  -- A goal moves over a token before it is reached again, so one less is
  -- enough.
  induction length with
  | zero => constructor <;> intros <;> omega
  | succ length ih =>
      constructor
      · intro power tree tokens depth hlength
        exact ih.expressed (Nat.le_of_lt_succ hlength)
      · intro power tree tokens depth left hlength
        exact ih.extended left (Nat.le_of_lt_succ hlength)
      · intro tree tokens depth hlength
        exact ih.stated tree (Nat.le_of_lt_succ hlength)
      · intro tree tokens depth hlength
        exact ih.sequenced (Nat.le_of_lt_succ hlength)
      · intro tree node head tokens depth hlength
        exact ih.continued (Nat.le_of_lt_succ hlength)

end TinyCompiler.Parser
