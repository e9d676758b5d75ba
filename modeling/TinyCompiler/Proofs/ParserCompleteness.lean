import TinyCompiler.Proofs.ParserSteps

/-!
# Derived tokens are parsed

Before the tokens of a derivation the parser reaches the goal of the derived
symbol.  It moves behind these tokens and appends the nodes of the derivation
and no others.  Tails of expressions are read by extending a left operand, one
operator after the other, until a token follows that does not bind tighter.
-/

namespace TinyCompiler.Parser

open Grammar

/-- Every number among the tokens can be read. -/
def Readable (tokens : List Token) : Prop :=
  ∀ token ∈ tokens, token.kind = .number → token.Readable

section Readable

variable {token : Token} {tokens more : List Token}

@[simp] theorem readable_append :
    Readable (tokens ++ more) ↔ Readable tokens ∧ Readable more := by
  simp only [Readable, List.mem_append, or_imp, forall_and]

@[simp] theorem readable_cons :
    Readable (token :: tokens) ↔ (token.kind = .number → token.Readable) ∧
      Readable tokens := by
  simp only [Readable, List.forall_mem_cons]

@[simp] theorem readable_nil : Readable [] := by
  simp [Readable]

theorem readable_terminal {kinds : List Token.Kind} (terminal : Terminal kinds)
    (hkinds : .number ∉ kinds) (hnumber : terminal.token.kind = .number) :
    terminal.token.Readable :=
  absurd (hnumber ▸ terminal.kind_mem) hkinds

end Readable

/-! ## Expressions -/

section Expressions

variable {file : String} {tree : Tree} {token : Token} {rest : List Token}
  {depth : Nat} {power other : BindingPower} {left : NodeId} {joiner : Joiner}

theorem extension_stops (hrest : rest ≠ [])
    (havoids : Avoids (tighter power) rest) :
    reach (depth + 1) (.extension left power) (before file tree rest) =
      .ok left (before file tree rest) := by
  obtain ⟨token, behind, rfl⟩ := List.exists_cons_of_ne_nil hrest
  rw [reach_succ, attempt, extension_before]
  rcases joiner_of_not_tighter (havoids token rfl)
    with hnone | ⟨other, joiner, hsome, hnot⟩
  · rw [hnone]
    rfl
  · rw [hsome]
    dsimp only
    rw [if_neg hnot]
    rfl

theorem extension_joins
    (hjoiner : Tables.standardJoiner token.kind = some (other, joiner))
    (hlt : power.rank < other.rank) {joined : NodeId} {after : Parser}
    (hjoin : reach depth (.join joiner left other)
      (before file tree (token :: rest)) =
      .ok joined after) :
    reach (depth + 1) (.extension left power)
      (before file tree (token :: rest)) =
      reach depth (.extension joined power) after := by
  rw [reach_succ, attempt, extension_before, hjoiner]
  dsimp only
  rw [if_pos hlt, bind_apply_of_ok hjoin]

/-- The parser behind an expression, at the node of the expression. -/
def Reached (file : String) (tree : Tree) (expr : Expr Nat)
    (rest : List Token) :
    EStateM.Result Stop Parser NodeId :=
  .ok (tree.size + expr.offset)
    (before file (tree.extend (expr.nodes tree.size)) rest)

/-- It remains to extend an expression by what follows it. -/
def Extending (power : BindingPower) (file : String) (tree : Tree)
    (expr : Expr Nat) (rest : List Token)
    (result : EStateM.Result Stop Parser NodeId) : Prop :=
  ∃ depth, Enough depth 3 rest ∧
    result = reach depth (.extension (tree.size + expr.offset) power)
    (before file (tree.extend (expr.nodes tree.size)) rest)

theorem Extending.reached {expr : Expr Nat}
    {result : EStateM.Result Stop Parser NodeId}
    (hextending : Extending power file tree expr rest result)
    (hrest : rest ≠ []) (havoids : Avoids (tighter power) rest) :
    result = Reached file tree expr rest := by
  obtain ⟨depth, henough, rfl⟩ := hextending
  obtain ⟨depth, rfl⟩ := henough.exists_succ 1 hrest (by decide)
  exact extension_stops hrest havoids

/-- The right operand of an operator is read behind the left one, and then the
operation is built. -/
theorem join_reached {kinds : List Token.Kind} (operator : Terminal kinds)
    (hkinds : ∀ kind ∈ kinds, kind ∈ operators) (left right : Expr Nat)
    {tokens : List Token}
    (htokens : tokens ≠ [])
    (hright : reach depth (.expression power)
      (before file (tree.extend (left.nodes tree.size)) tokens) =
        Reached file (tree.extend (left.nodes tree.size)) right rest) :
    reach (depth + 1) (.join .binary (tree.size + left.offset) power)
        (before file (tree.extend (left.nodes tree.size))
          (operator.token :: tokens)) =
      Reached file tree (operator.join left right) rest := by
  rw [reach_succ, attempt, binary, bind_apply_of_ok (advance_before htokens),
    operator.ofKind?_eq hkinds]
  dsimp only
  rw [bind_apply_of_ok hright, build_before]
  · simp only [Reached, Terminal.join, Expr.nodes_op, Expr.offset, Expr.form,
      Tree.size_extend, Tree.extend_extend, Expr.length_nodes,
      List.length_append, List.append_assoc]
  · simp only [Form.parts, List.mem_cons, List.not_mem_nil, or_false,
      forall_eq_or_imp, forall_eq]
    exact ⟨(left.holds_extend_nodes tree).extend _, right.holds_extend_nodes _⟩

/-- A comparison is an operation that no other comparison follows. -/
theorem comparison_reached {expr : Expr Nat} {start : Parser}
    (hjoin : reach depth (.join .binary left power) start =
      Reached file tree expr rest)
    (hrest : rest ≠ []) (havoids : Avoids relations rest) :
    reach (depth + 1) (.join .comparison left power) start =
      Reached file tree expr rest := by
  obtain ⟨token, behind, rfl⟩ := List.exists_cons_of_ne_nil hrest
  have hpower :
      (before file (tree.extend (expr.nodes tree.size))
        (token :: behind)).power ≠ .relational := by
    have hkind := havoids token rfl
    rw [power_before]
    revert hkind
    cases token.kind <;> decide
  rw [reach_succ, attempt, comparison, bind_apply_of_ok hjoin,
    bind_apply_of_ok (get_apply _), if_neg hpower]
  rfl

/-- An operand is read by the rule of its first token, and then extended. -/
theorem expression_extending (rule : Rule) {expr : Expr Nat}
    {tokens : List Token}
    (hoperand : Tables.standardOperand token.kind = some rule)
    (hrule : reach depth (.rule rule) (before file tree (token :: tokens)) =
      Reached file tree expr rest) (henough : Enough depth 3 rest) :
    Extending power file tree expr rest
      (reach (depth + 1) (.expression power)
        (before file tree (token :: tokens))) := by
  refine ⟨depth, henough, ?_⟩
  rw [reach_succ, attempt, expression_before, hoperand]
  exact bind_apply_of_ok hrule _

end Expressions

end TinyCompiler.Parser

namespace TinyCompiler.Grammar

open TinyCompiler.Parser

section Operands

variable {file : String} {tree : Tree} {rest : List Token} {depth : Nat}
  {power : BindingPower}

theorem Factor.tokens_ne_nil (factor : Factor) : factor.tokens ≠ [] := by
  cases factor <;> simp [Factor.tokens]

mutual

/-- Behind its left operand an expression is extended by its tail. -/
theorem Comparison.extending :
    ∀ (comparison : Comparison) (left : Expr Nat) {file : String}
    {tree : Tree} {rest : List Token} {depth : Nat},
    rest ≠ [] → Avoids operators rest → Readable comparison.tokens →
    Enough depth 3 (comparison.tokens ++ rest) →
      Extending .default file tree (comparison.extend left) rest
        (reach depth (.extension (tree.size + left.offset) .default)
          (before file (tree.extend (left.nodes tree.size))
            (comparison.tokens ++ rest)))
  | .none, left, file, tree, rest, depth, hrest, havoids, hreadable, henough =>
      ⟨depth, henough, rfl⟩
  | .some operator right, left, file, tree, rest, depth, hrest, havoids,
      hreadable, henough => by
      simp only [Comparison.tokens, List.cons_append, readable_cons]
        at hreadable henough ⊢
      obtain ⟨depth, rfl⟩ :=
        henough.exists_succ 3 (List.cons_ne_nil _ _) (by decide)
      have hright : reach depth (.expression .relational)
          (before file (tree.extend (left.nodes tree.size))
            (right.tokens ++ rest)) =
            Reached file (tree.extend (left.nodes tree.size)) right.expr rest :=
        (right.extending .relational (by decide) hrest
          (havoids.mono (by decide)) hreadable.2
          (henough.behind _ (by simp) (by decide))).reached hrest
            (havoids.mono (by decide))
      have hjoin :=
        comparison_reached (join_reached operator (by decide) left right.expr
        (by simp [hrest]) hright) hrest (havoids.mono (by decide))
      rw [extension_joins (joiner_of_mem_relations operator.kind_mem)
        (by decide) hjoin]
      exact ⟨depth + 2, henough.behind 1 (by simp +arith) (by decide), rfl⟩

theorem Exp.reached :
    ∀ (exp : Exp) (file : String) (tree : Tree) {rest : List Token}
    {depth : Nat}, rest ≠ [] → Avoids operators rest → Readable exp.tokens →
    Enough depth 2 (exp.tokens ++ rest) →
      reach depth (.expression .default)
        (before file tree (exp.tokens ++ rest)) =
        Reached file tree exp.expr rest
  | .mk left comparison, file, tree, rest, depth, hrest, havoids, hreadable,
      henough => by
      simp only [Exp.tokens, List.append_assoc, readable_append]
        at hreadable henough ⊢
      obtain ⟨less, hless, hleft⟩ := left.extending .default (by decide)
        (by simp [hrest])
          (comparison.avoids (havoids.mono (by decide)) (by decide))
        hreadable.1 henough
      rw [hleft]
      exact (comparison.extending left.expr hrest havoids hreadable.2
        hless).reached hrest havoids

/-- A simple expression is read as the beginning of an expression. -/
theorem SimpleExp.extending :
    ∀ (simple : SimpleExp) (power : BindingPower) {file : String}
    {tree : Tree} {rest : List Token} {depth : Nat}, power.rank < 2 →
    rest ≠ [] → Avoids products rest → Readable simple.tokens →
    Enough depth 2 (simple.tokens ++ rest) →
      Extending power file tree simple.expr rest
        (reach depth (.expression power)
          (before file tree (simple.tokens ++ rest)))
  | .mk first terms, power, file, tree, rest, depth, hpower, hrest, havoids,
      hreadable, henough => by
      simp only [SimpleExp.tokens, List.append_assoc, readable_append]
        at hreadable henough ⊢
      obtain ⟨less, hless, hfirst⟩ := first.extending power (by omega)
        (by simp [hrest]) hreadable.1 henough
      rw [hfirst]
      exact terms.extending first.expr hpower hrest havoids hreadable.2 hless

theorem Terms.extending :
    ∀ (terms : Terms) (left : Expr Nat) {power : BindingPower}
    {file : String} {tree : Tree} {rest : List Token} {depth : Nat},
    power.rank < 2 → rest ≠ [] → Avoids products rest →
    Readable terms.tokens → Enough depth 3 (terms.tokens ++ rest) →
      Extending power file tree (terms.extend left) rest
        (reach depth (.extension (tree.size + left.offset) power)
          (before file (tree.extend (left.nodes tree.size))
            (terms.tokens ++ rest)))
  | .nil, left, power, file, tree, rest, depth, hpower, hrest, havoids,
      hreadable, henough =>
      ⟨depth, henough, rfl⟩
  | .cons operator next terms, left, power, file, tree, rest, depth, hpower,
      hrest, havoids, hreadable, henough => by
      simp only [Terms.tokens, List.cons_append, List.append_assoc,
        readable_cons, readable_append] at hreadable henough ⊢
      obtain ⟨depth, rfl⟩ :=
        henough.exists_succ 2 (List.cons_ne_nil _ _) (by decide)
      have hbehind : terms.tokens ++ rest ≠ [] := by simp [hrest]
      have hright : reach depth (.expression .additive)
          (before file (tree.extend (left.nodes tree.size))
            (next.tokens ++ (terms.tokens ++ rest))) =
            Reached file (tree.extend (left.nodes tree.size)) next.expr
              (terms.tokens ++ rest) :=
        (next.extending .additive (by decide) hbehind hreadable.2.1
          (henough.behind _ (by simp) (by decide))).reached hbehind
          (terms.avoids havoids (by decide))
      have hjoin := join_reached operator (by decide) left next.expr
        (by simp [hrest]) hright
      rw [extension_joins (joiner_of_mem_sums operator.kind_mem) hpower hjoin]
      exact terms.extending (operator.join left next.expr) hpower hrest
        havoids hreadable.2.2
        (henough.behind 1 (by simp +arith) (by decide))

theorem Term.extending : ∀ (term : Term) (power : BindingPower) {file : String}
    {tree : Tree} {rest : List Token} {depth : Nat}, power.rank < 3 →
    rest ≠ [] → Readable term.tokens → Enough depth 2 (term.tokens ++ rest) →
      Extending power file tree term.expr rest
        (reach depth (.expression power)
          (before file tree (term.tokens ++ rest)))
  | .mk first factors, power, file, tree, rest, depth, hpower, hrest, hreadable,
      henough => by
      simp only [Term.tokens, List.append_assoc, readable_append]
        at hreadable henough ⊢
      obtain ⟨less, hless, hfirst⟩ := first.extending power
        (by simp [hrest]) hreadable.1 henough
      rw [hfirst]
      exact factors.extending first.expr hpower hrest hreadable.2 hless

theorem Factors.extending :
    ∀ (factors : Factors) (left : Expr Nat) {power : BindingPower}
    {file : String} {tree : Tree} {rest : List Token} {depth : Nat},
    power.rank < 3 → rest ≠ [] → Readable factors.tokens →
    Enough depth 3 (factors.tokens ++ rest) →
      Extending power file tree (factors.extend left) rest
        (reach depth (.extension (tree.size + left.offset) power)
          (before file (tree.extend (left.nodes tree.size))
            (factors.tokens ++ rest)))
  | .nil, left, power, file, tree, rest, depth, hpower, hrest, hreadable,
      henough =>
      ⟨depth, henough, rfl⟩
  | .cons operator next factors, left, power, file, tree, rest, depth, hpower,
      hrest, hreadable, henough => by
      simp only [Factors.tokens, List.cons_append, List.append_assoc,
        readable_cons, readable_append] at hreadable henough ⊢
      obtain ⟨depth, rfl⟩ :=
        henough.exists_succ 2 (List.cons_ne_nil _ _) (by decide)
      have hbehind : factors.tokens ++ rest ≠ [] := by simp [hrest]
      have hright : reach depth (.expression .multiplicative)
          (before file (tree.extend (left.nodes tree.size))
            (next.tokens ++ (factors.tokens ++ rest))) =
            Reached file (tree.extend (left.nodes tree.size)) next.expr
              (factors.tokens ++ rest) :=
        (next.extending .multiplicative hbehind hreadable.2.1
          (henough.behind _ (by simp) (by decide))).reached hbehind
          (fun _ _ => List.not_mem_nil)
      have hjoin := join_reached operator (by decide) left next.expr
        (by simp [hrest]) hright
      rw [extension_joins
        (joiner_of_mem_products operator.kind_mem) hpower hjoin]
      exact factors.extending (operator.join left next.expr) hpower
        hrest hreadable.2.2
        (henough.behind 1 (by simp +arith) (by decide))

theorem Factor.extending :
    ∀ (factor : Factor) (power : BindingPower) {file : String}
    {tree : Tree} {rest : List Token} {depth : Nat},
    rest ≠ [] → Readable factor.tokens →
      Enough depth 2 (factor.tokens ++ rest) →
      Extending power file tree factor.expr rest
        (reach depth (.expression power)
          (before file tree (factor.tokens ++ rest)))
  | .group opening inner closing, power, file, tree, rest, depth, hrest,
      hreadable, henough => by
      simp only [Factor.tokens, List.cons_append, List.append_assoc,
        List.nil_append, readable_cons, readable_append] at hreadable henough ⊢
      obtain ⟨depth, rfl⟩ :=
        henough.exists_succ 2 (List.cons_ne_nil _ _) (by decide)
      have hinner :=
        inner.reached file tree (List.cons_ne_nil closing.token rest)
        (closing.avoids _ (by decide)) hreadable.2.1
          (henough.behind 2 (by simp) (by decide))
      have hopening : opening.token.kind = .openParen :=
        List.mem_singleton.mp opening.kind_mem
      refine expression_extending .grouping (by rw [hopening]; rfl) ?_
        (henough.behind 1 (by simp +arith) (by decide))
      rw [reach_succ, attempt, follow, grouping,
        bind_apply_of_ok (advance_before (by simp))]
      rw [bind_apply_of_ok hinner,
        bind_apply_of_ok (expectWith_before closing _ hrest)]
      rfl
  | .number token, power, file, tree, rest, depth, hrest, hreadable,
      henough => by
      simp only [Factor.tokens, List.cons_append, List.nil_append,
        readable_cons]
        at hreadable henough ⊢
      obtain ⟨depth, rfl⟩ :=
        henough.exists_succ 2 (List.cons_ne_nil _ _) (by decide)
      have hkind : token.token.kind = .number :=
        List.mem_singleton.mp token.kind_mem
      obtain ⟨value, hread⟩ := hreadable.1 hkind
      have hvalue : token.token.value = value := by
        unfold Token.value
        rw [hread]
      refine expression_extending .primary (by rw [hkind]; rfl) ?_
        (henough.behind 1 (by simp) (by decide))
      rw [reach_succ, attempt, follow, primary_before, hkind]
      dsimp only
      rw [hread]
      dsimp only
      rw [bind_apply_of_ok (advance_before hrest),
        build_before (by simp [Form.parts]), ← hvalue]
      rfl
  | .identifier token, power, file, tree, rest, depth, hrest, hreadable,
      henough => by
      simp only [Factor.tokens, List.cons_append, List.nil_append] at henough ⊢
      obtain ⟨depth, rfl⟩ :=
        henough.exists_succ 2 (List.cons_ne_nil _ _) (by decide)
      have hkind : token.token.kind = .identifier :=
        List.mem_singleton.mp token.kind_mem
      refine expression_extending .primary (by rw [hkind]; rfl) ?_
        (henough.behind 1 (by simp) (by decide))
      rw [reach_succ, attempt, follow, primary_before, hkind]
      dsimp only
      rw [bind_apply_of_ok (advance_before hrest),
        build_before (by simp [Form.parts])]
      rfl

end

end Operands

/-! ## Statements -/

/-- The tokens start with one that ends a sequence. -/
def Closes (tokens : List Token) : Prop :=
  ∃ token rest, tokens = token :: rest ∧ token.kind.endsSequence

section Closes

variable {tokens : List Token}

theorem Closes.ne_nil (hcloses : Closes tokens) : tokens ≠ [] := by
  obtain ⟨token, rest, rfl, -⟩ := hcloses
  exact List.cons_ne_nil token rest

theorem Closes.avoids (hcloses : Closes tokens) :
    Avoids (.semicolon :: operators) tokens := by
  obtain ⟨token, rest, rfl, hends⟩ := hcloses
  intro other hother
  obtain rfl := Option.some.inj hother
  revert hends
  cases token.kind <;> decide

theorem Terminal.closes {kinds : List Token.Kind} (terminal : Terminal kinds)
    (rest : List Token) (hkinds : ∀ kind ∈ kinds, kind.endsSequence) :
    Closes (terminal.token :: rest) :=
  ⟨terminal.token, rest, rfl, hkinds _ terminal.kind_mem⟩

end Closes

theorem Sequence.holds_extend_nodes (tree : Tree) (sequence : Sequence) :
    (tree.extend (sequence.nodes tree.size)).Holds .statement
    (sequence.head tree.size) := by
  cases sequence with
  | mk first rest =>
      refine ⟨first.node tree.size
        (rest.head? (tree.size + first.offset + 1)), ?_,
        first.form_category tree.size⟩
      rw [Sequence.head, Tree.get?_extend_add, Sequence.nodes,
        List.getElem?_append_right (by simp)]
      simp

theorem reach_statement {file : String} {tree : Tree} {rest : List Token}
    {depth : Nat} {kind : Token.Kind} {rule : Rule} (terminal : Terminal [kind])
    (hrule : Tables.standardStatement kind = some rule) :
    reach (depth + 2) (.rule .statement)
      (before file tree (terminal.token :: rest)) =
      follow (reach depth) rule
        (before file tree (terminal.token :: rest)) := by
  have hkind : terminal.token.kind = kind :=
    List.mem_singleton.mp terminal.kind_mem
  rw [reach_succ, attempt, follow, statement_before, hkind, hrule]
  rfl

theorem Statement.tokens_ne_nil (statement : Statement) :
    statement.tokens ≠ [] := by
  cases statement <;> simp [Statement.tokens]

/-- The tokens could not have been read as a part of the statement before them.
A statement that closes with a word of its own may stand before any. -/
def Statement.StopsBefore (rest : List Token) : Statement → Prop
  | .ifThen _ _ _ _ _ => True
  | .ifElse _ _ _ _ _ _ _ => True
  | .read _ _ => True
  | _ => Avoids operators rest

theorem Statement.stopsBefore_of_avoids (statement : Statement)
    {rest : List Token} (havoids : Avoids operators rest) :
    statement.StopsBefore rest := by
  cases statement <;> trivial

/-- The parser behind a statement, at the node of the statement. -/
def Statement.Reached (file : String) (tree : Tree) (statement : Statement)
    (rest : List Token) : EStateM.Result Stop Parser NodeId :=
  .ok (tree.size + statement.offset)
    (before file
      (tree.extend
        (statement.partNodes tree.size ++ [statement.node tree.size none]))
      rest)

/-- The parser behind a sequence, at the node of its first statement. -/
def Sequence.Reached (file : String) (tree : Tree) (sequence : Sequence)
    (rest : List Token) :
    EStateM.Result Stop Parser NodeId :=
  .ok (sequence.head tree.size)
    (before file (tree.extend (sequence.nodes tree.size)) rest)

/-- The parts of a statement have their places among the nodes in front of
it. -/
theorem Statement.holds_parts (statement : Statement) (tree : Tree) :
    ∀ part ∈ (statement.form tree.size).parts,
      (tree.extend (statement.partNodes tree.size)).Holds part.1 part.2 := by
  have htest := fun exp : Exp => exp.expr.holds_extend_nodes tree
  cases statement with
  | ifThen ifWord test thenWord thenPart endWord =>
      have hthen :=
        thenPart.holds_extend_nodes (tree.extend (test.expr.nodes tree.size))
      have hfirst := (htest test).extend
        (thenPart.nodes (tree.extend (test.expr.nodes tree.size)).size)
      simp only [Tree.size_extend, Tree.extend_extend, Expr.length_nodes]
        at hthen hfirst
      simpa [Statement.form, Statement.partNodes, Form.parts]
        using ⟨hfirst, hthen⟩
  | ifElse ifWord test thenWord thenPart elseWord elsePart endWord =>
      have hthen :=
        thenPart.holds_extend_nodes (tree.extend (test.expr.nodes tree.size))
      have hother := elsePart.holds_extend_nodes
        ((tree.extend (test.expr.nodes tree.size)).extend
        (thenPart.nodes (tree.extend (test.expr.nodes tree.size)).size))
      have hfirst := ((htest test).extend
        (thenPart.nodes (tree.size + (test.expr.offset + 1)))).extend
          (elsePart.nodes (tree.size + (test.expr.offset + 1 + thenPart.count)))
      have hsecond := hthen.extend
        (elsePart.nodes (tree.size + (test.expr.offset + 1 + thenPart.count)))
      simp only [Tree.size_extend, Tree.extend_extend, Expr.length_nodes,
        List.length_append, thenPart.length_nodes,
        List.append_assoc] at hfirst hsecond hother
      simpa [Statement.form, Statement.partNodes, Form.parts]
        using ⟨hfirst, hsecond, hother⟩
  | repeatUntil repeatWord body untilWord test =>
      have hbody := (body.holds_extend_nodes tree).extend
        (test.expr.nodes (tree.extend (body.nodes tree.size)).size)
      have hsecond :=
        test.expr.holds_extend_nodes (tree.extend (body.nodes tree.size))
      simp only [Tree.size_extend, Tree.extend_extend, body.length_nodes]
        at hbody hsecond
      simpa [Statement.form, Statement.partNodes, Form.parts]
        using ⟨hbody, hsecond⟩
  | assign target sign value =>
      simpa [Statement.form, Statement.partNodes, Form.parts] using htest value
  | read readWord target => simp [Statement.form, Form.parts]
  | write writeWord value =>
      simpa [Statement.form, Statement.partNodes, Form.parts] using htest value

theorem Statement.build_reached (statement : Statement) (file : String)
    (tree : Tree) (rest : List Token) :
    build statement.line (statement.form tree.size)
        (before file (tree.extend (statement.partNodes tree.size)) rest) =
      statement.Reached file tree rest := by
  rw [build_before (statement.holds_parts tree)]
  simp [Statement.Reached, Statement.node, Node.fresh]

/-- The statement before another one gets a link to it. -/
theorem Statement.link_before (next : Statement) {file : String} {tree : Tree}
    {node : Node} {rest : List Token}
    (hcategory : node.form.category = .statement) :
    changeTree (fun tree' =>
        tree'.setSibling tree.size ((tree.extend [node]).size + next.offset))
        (before file
          ((tree.extend [node]).extend
          (next.partNodes (tree.extend [node]).size ++
          [next.node (tree.extend [node]).size none])) rest) =
      .ok () (before file ((tree.extend ({ node with
        sibling := some (tree.size + 1 + next.offset) } ::
          next.partNodes (tree.size + 1))).extend
          [next.node (tree.size + 1) none]) rest) := by
  have hlink := tree.setSibling_extend node (next.node (tree.size + 1) none)
    (next.partNodes (tree.size + 1)) hcategory (next.form_category _) rfl
  exact changeTree_before (by simpa using hlink)

theorem Statement.size_linked (next : Statement) (tree : Tree)
    (node linked : Node) :
    (tree.extend (linked :: next.partNodes (tree.size + 1))).size =
      (tree.extend [node]).size + next.offset := by
  simp only [Tree.size_extend, List.length_cons, next.length_partNodes,
    List.length_nil]
  omega

/-! ### One rule at a time -/

section Follow

variable {recur : Goal → Action NodeId} {file : String} {tree : Tree}
  {rest : List Token}

/-- What the parser reaches when it goes on with an expression. -/
def Exp.ReachedBy (recur : Goal → Action NodeId) (file : String) (tree : Tree)
    (exp : Exp) (rest : List Token) : Prop :=
  recur (.expression .default) (before file tree (exp.tokens ++ rest)) =
    Reached file tree exp.expr rest

def Sequence.ReachedBy (recur : Goal → Action NodeId) (file : String)
    (tree : Tree) (sequence : Sequence) (rest : List Token) : Prop :=
  recur (.rule .sequence) (before file tree (sequence.tokens ++ rest)) =
    sequence.Reached file tree rest

theorem Statement.follow_ifThen {ifWord : Terminal [.ifWord]} {test : Exp}
    {thenWord : Terminal [.thenWord]} {thenPart : Sequence}
    {endWord : Terminal [.endWord]}
    (htest : test.ReachedBy recur file tree
      (thenWord.token :: (thenPart.tokens ++ endWord.token :: rest)))
    (hthen : thenPart.ReachedBy recur file
      (tree.extend (test.expr.nodes tree.size))
      (endWord.token :: rest)) (hrest : rest ≠ []) :
    follow recur .ifStatement (before file tree
        ((Statement.ifThen ifWord test thenWord thenPart endWord).tokens ++
          rest)) =
      (Statement.ifThen ifWord test thenWord thenPart endWord).Reached file
        tree rest := by
  have hbuild :=
    (Statement.ifThen ifWord test thenWord thenPart endWord).build_reached
    file tree rest
  have hends : endWord.token.kind ≠ .elseWord := by
    rw [List.mem_singleton.mp endWord.kind_mem]
    decide
  simp only [Statement.tokens, List.cons_append, List.append_assoc,
    List.nil_append]
  rw [follow, ifStatement, bind_apply_of_ok (advance_before (by simp)),
    bind_apply_of_ok htest, bind_apply_of_ok (expect_before thenWord (by simp)),
    bind_apply_of_ok hthen, bind_apply_of_ok (get_apply _), kind_before,
    if_neg hends, bind_apply_of_ok (pure_apply _ _)]
  beta_reduce
  rw [bind_apply_of_ok (expect_before endWord hrest)]
  simpa [Statement.form, Statement.partNodes, Statement.line] using hbuild

theorem Statement.follow_ifElse {ifWord : Terminal [.ifWord]} {test : Exp}
    {thenWord : Terminal [.thenWord]} {thenPart elsePart : Sequence}
    {elseWord : Terminal [.elseWord]} {endWord : Terminal [.endWord]}
    (htest : test.ReachedBy recur file tree (thenWord.token ::
      (thenPart.tokens ++ elseWord.token ::
        (elsePart.tokens ++ endWord.token :: rest))))
    (hthen : thenPart.ReachedBy recur file
      (tree.extend (test.expr.nodes tree.size))
      (elseWord.token :: (elsePart.tokens ++ endWord.token :: rest)))
    (helse : elsePart.ReachedBy recur file
      ((tree.extend (test.expr.nodes tree.size)).extend
      (thenPart.nodes (tree.extend (test.expr.nodes tree.size)).size))
        (endWord.token :: rest)) (hrest : rest ≠ []) :
    follow recur .ifStatement
        (before file tree ((Statement.ifElse ifWord test thenWord
        thenPart elseWord elsePart endWord).tokens ++ rest)) =
      (Statement.ifElse ifWord test thenWord thenPart elseWord elsePart
        endWord).Reached
        file tree rest := by
  have hbuild :=
    (Statement.ifElse ifWord test thenWord thenPart elseWord elsePart
    endWord).build_reached file tree rest
  have hword := List.mem_singleton.mp elseWord.kind_mem
  simp only [Statement.tokens, List.cons_append, List.append_assoc,
    List.nil_append]
  rw [follow, ifStatement, bind_apply_of_ok (advance_before (by simp)),
    bind_apply_of_ok htest, bind_apply_of_ok (expect_before thenWord (by simp)),
    bind_apply_of_ok hthen, bind_apply_of_ok (get_apply _), kind_before,
    if_pos hword, bind_apply_of_ok (advance_before (by simp)),
    bind_apply_of_ok helse, bind_apply_of_ok (pure_apply _ _)]
  beta_reduce
  rw [bind_apply_of_ok (expect_before endWord hrest)]
  simpa [Statement.form, Statement.partNodes, Statement.line] using hbuild

theorem Statement.follow_repeat {repeatWord : Terminal [.repeatWord]}
    {body : Sequence} {untilWord : Terminal [.untilWord]} {test : Exp}
    (hbody : body.ReachedBy recur file tree
      (untilWord.token :: (test.tokens ++ rest)))
    (htest : test.ReachedBy recur file
      (tree.extend (body.nodes tree.size)) rest)
    (hrest : rest ≠ []) :
    follow recur .repeatStatement (before file tree
        ((Statement.repeatUntil repeatWord body untilWord test).tokens ++
          rest)) =
      (Statement.repeatUntil repeatWord body untilWord test).Reached file
        tree rest := by
  have hbuild :=
    (Statement.repeatUntil repeatWord body untilWord test).build_reached
    file tree rest
  simp only [Statement.tokens, List.cons_append, List.append_assoc]
  rw [follow, repeatStatement, bind_apply_of_ok (advance_before (by simp)),
    bind_apply_of_ok hbody,
    bind_apply_of_ok (expect_before untilWord (by simp [hrest])),
    bind_apply_of_ok htest]
  simpa [Statement.form, Statement.partNodes, Statement.line] using hbuild

theorem Statement.follow_assign {target : Terminal [.identifier]}
    {sign : Terminal [.assignment]} {value : Exp}
    (hvalue : value.ReachedBy recur file tree rest) (hrest : rest ≠ []) :
    follow recur .assignment (before file tree
        ((Statement.assign target sign value).tokens ++ rest)) =
      (Statement.assign target sign value).Reached file tree rest := by
  have hbuild :=
    (Statement.assign target sign value).build_reached file tree rest
  simp only [Statement.tokens, List.cons_append]
  rw [follow, assignment, bind_apply_of_ok (expect_before target (by simp)),
    bind_apply_of_ok (expectWith_before sign _ (by simp [hrest])),
    bind_apply_of_ok hvalue]
  exact hbuild

theorem Statement.follow_read {readWord : Terminal [.readWord]}
    {target : Terminal [.identifier]} (hrest : rest ≠ []) :
    follow recur .readStatement (before file tree
        ((Statement.read readWord target).tokens ++ rest)) =
      (Statement.read readWord target).Reached file tree rest := by
  have hbuild := (Statement.read readWord target).build_reached file tree rest
  simp only [Statement.tokens, List.cons_append, List.nil_append]
  rw [follow, readStatement, bind_apply_of_ok (advance_before (by simp)),
    bind_apply_of_ok (expectWith_before target _ hrest)]
  exact hbuild

theorem Statement.follow_write {writeWord : Terminal [.writeWord]} {value : Exp}
    (hvalue : value.ReachedBy recur file tree rest) (hrest : rest ≠ []) :
    follow recur .writeStatement (before file tree
        ((Statement.write writeWord value).tokens ++ rest)) =
      (Statement.write writeWord value).Reached file tree rest := by
  have hbuild := (Statement.write writeWord value).build_reached file tree rest
  simp only [Statement.tokens, List.cons_append]
  rw [follow, writeStatement,
    bind_apply_of_ok (advance_before (by simp [hrest])),
    bind_apply_of_ok hvalue]
  exact hbuild

end Follow

/-- The parser reads a statement into every tree, before whatever stops it. -/
def Statement.Parses (statement : Statement) : Prop :=
  ∀ (file : String) (tree : Tree) {rest : List Token} {depth : Nat},
    rest ≠ [] → statement.StopsBefore rest → Readable statement.tokens →
      Enough depth 2 (statement.tokens ++ rest) →
        reach depth (.rule .statement)
            (before file tree (statement.tokens ++ rest)) =
          statement.Reached file tree rest

def Sequence.Parses (sequence : Sequence) : Prop :=
  ∀ (file : String) (tree : Tree) {rest : List Token} {depth : Nat},
    Closes rest → Readable sequence.tokens →
      Enough depth 3 (sequence.tokens ++ rest) →
        reach depth (.rule .sequence)
            (before file tree (sequence.tokens ++ rest)) =
          sequence.Reached file tree rest

theorem Statement.ifThen_parses {ifWord : Terminal [.ifWord]} {test : Exp}
    {thenWord : Terminal [.thenWord]} {thenPart : Sequence}
    {endWord : Terminal [.endWord]} (hthen : thenPart.Parses) :
    (Statement.ifThen ifWord test thenWord thenPart endWord).Parses := by
  intro file tree rest depth hrest _ hreadable henough
  have hfollow := @Statement.follow_ifThen
  simp only [Statement.tokens, List.cons_append, List.append_assoc,
    List.nil_append, readable_cons, readable_append]
    at hfollow hreadable henough ⊢
  obtain ⟨depth, rfl⟩ :=
    henough.exists_succ 2 (List.cons_ne_nil _ _) (by decide)
  rw [reach_statement ifWord rfl]
  refine hfollow ?_ ?_ hrest
  · exact test.reached file tree (List.cons_ne_nil _ _)
      (thenWord.avoids _ (by decide)) hreadable.2.1
      (henough.behind 2 (by simp) (by decide))
  · exact hthen file _ (endWord.closes rest (by decide)) hreadable.2.2.2.1
      (henough.behind 2 (by simp +arith) (by decide))

theorem Statement.ifElse_parses {ifWord : Terminal [.ifWord]} {test : Exp}
    {thenWord : Terminal [.thenWord]} {thenPart elsePart : Sequence}
    {elseWord : Terminal [.elseWord]} {endWord : Terminal [.endWord]}
    (hthen : thenPart.Parses) (helse : elsePart.Parses) :
    (Statement.ifElse ifWord test thenWord thenPart elseWord elsePart
      endWord).Parses := by
  intro file tree rest depth hrest _ hreadable henough
  have hfollow := @Statement.follow_ifElse
  simp only [Statement.tokens, List.cons_append, List.append_assoc,
    List.nil_append, readable_cons, readable_append]
    at hfollow hreadable henough ⊢
  obtain ⟨depth, rfl⟩ :=
    henough.exists_succ 2 (List.cons_ne_nil _ _) (by decide)
  rw [reach_statement ifWord rfl]
  refine hfollow ?_ ?_ ?_ hrest
  · exact test.reached file tree (List.cons_ne_nil _ _)
      (thenWord.avoids _ (by decide)) hreadable.2.1
      (henough.behind 2 (by simp) (by decide))
  · exact hthen file _ (elseWord.closes _ (by decide)) hreadable.2.2.2.1
      (henough.behind 2 (by simp +arith) (by decide))
  · exact helse file _ (endWord.closes rest (by decide))
      hreadable.2.2.2.2.2.1 (henough.behind 2 (by simp +arith) (by decide))

theorem Statement.repeatUntil_parses {repeatWord : Terminal [.repeatWord]}
    {body : Sequence} {untilWord : Terminal [.untilWord]} {test : Exp}
    (hbody : body.Parses) :
    (Statement.repeatUntil repeatWord body untilWord test).Parses := by
  intro file tree rest depth hrest hstops hreadable henough
  have hfollow := @Statement.follow_repeat
  simp only [Statement.tokens, List.cons_append, List.append_assoc,
    readable_cons, readable_append] at hfollow hreadable henough ⊢
  obtain ⟨depth, rfl⟩ :=
    henough.exists_succ 2 (List.cons_ne_nil _ _) (by decide)
  rw [reach_statement repeatWord rfl]
  refine hfollow ?_ ?_ hrest
  · exact hbody file tree (untilWord.closes _ (by decide)) hreadable.2.1
      (henough.behind 2 (by simp) (by decide))
  · exact test.reached file _ hrest hstops hreadable.2.2.2
      (henough.behind 2 (by simp +arith) (by decide))

theorem Statement.assign_parses {target : Terminal [.identifier]}
    {sign : Terminal [.assignment]} {value : Exp} :
    (Statement.assign target sign value).Parses := by
  intro file tree rest depth hrest hstops hreadable henough
  have hfollow := @Statement.follow_assign
  simp only [Statement.tokens, List.cons_append, readable_cons]
    at hfollow hreadable henough ⊢
  obtain ⟨depth, rfl⟩ :=
    henough.exists_succ 2 (List.cons_ne_nil _ _) (by decide)
  rw [reach_statement target rfl]
  have hvalue := value.reached file tree hrest hstops hreadable.2.2
    (henough.behind 2 (by simp +arith) (by decide))
  exact hfollow hvalue hrest

theorem Statement.read_parses {readWord : Terminal [.readWord]}
    {target : Terminal [.identifier]} :
    (Statement.read readWord target).Parses := by
  intro file tree rest depth hrest _ _ henough
  have hfollow := @Statement.follow_read
  simp only [Statement.tokens, List.cons_append, List.nil_append]
    at hfollow henough ⊢
  obtain ⟨depth, rfl⟩ :=
    henough.exists_succ 2 (List.cons_ne_nil _ _) (by decide)
  rw [reach_statement readWord rfl]
  exact hfollow hrest

theorem Statement.write_parses {writeWord : Terminal [.writeWord]}
    {value : Exp} : (Statement.write writeWord value).Parses := by
  intro file tree rest depth hrest hstops hreadable henough
  have hfollow := @Statement.follow_write
  simp only [Statement.tokens, List.cons_append, readable_cons]
    at hfollow hreadable henough ⊢
  obtain ⟨depth, rfl⟩ :=
    henough.exists_succ 2 (List.cons_ne_nil _ _) (by decide)
  rw [reach_statement writeWord rfl]
  have hvalue := value.reached file tree hrest hstops hreadable.2
    (henough.behind 2 (by simp) (by decide))
  exact hfollow hvalue hrest

mutual

theorem Statement.reached : ∀ statement : Statement, statement.Parses
  | .ifThen _ _ _ thenPart _ =>
      Statement.ifThen_parses (Sequence.reached thenPart)
  | .ifElse _ _ _ thenPart _ elsePart _ =>
      Statement.ifElse_parses (Sequence.reached thenPart)
        (Sequence.reached elsePart)
  | .repeatUntil _ body _ _ =>
      Statement.repeatUntil_parses (Sequence.reached body)
  | .assign _ _ _ => Statement.assign_parses
  | .read _ _ => Statement.read_parses
  | .write _ _ => Statement.write_parses

theorem Sequence.reached : ∀ sequence : Sequence, sequence.Parses
  | .mk first statements, file, tree, rest, depth, hcloses,
        hreadable, henough => by
      simp only [Sequence.tokens, List.append_assoc, readable_append]
        at hreadable henough ⊢
      have hbehind : statements.tokens ++ rest ≠ [] := by simp [hcloses.ne_nil]
      obtain ⟨depth, rfl⟩ :=
        henough.exists_succ 1 (by simp [hbehind]) (by decide)
      have hstops := first.stopsBefore_of_avoids
        (statements.avoids (hcloses.avoids.mono (by decide)) (by decide))
      have hfirst := first.reached file tree hbehind hstops hreadable.1
        (henough.here 1 (by decide))
      have hlength := List.length_pos_iff.mpr first.tokens_ne_nil
      have hrest :=
        statements.reached file (tree.extend (first.partNodes tree.size))
          (first.node tree.size none) (tree.size + first.offset) hcloses
          hreadable.2 (first.form_category tree.size) rfl
          (henough.behind 1
            (by simp only [List.length_append]; omega) (by decide))
      rw [reach_succ, attempt, follow, Parser.sequence, bind_apply_of_ok hfirst]
      simpa [Sequence.Reached, Sequence.head, Sequence.nodes,
        Statement.node] using hrest

/-- Behind a statement that is the last node of a tree a sequence goes on with
the statements that follow. -/
theorem Statements.reached :
    ∀ (statements : Statements) (file : String) (tree : Tree)
    (node : Node) (head : NodeId) {rest : List Token} {depth : Nat},
    Closes rest → Readable statements.tokens → node.form.category = .statement →
    node.sibling = none → Enough depth 1 (statements.tokens ++ rest) →
      reach depth (.sequenceAfter head tree.size)
        (before file (tree.extend [node]) (statements.tokens ++ rest)) =
          .ok head (before file (tree.extend
            ({ node with sibling := statements.head? (tree.size + 1) } ::
              statements.nodes (tree.size + 1))) rest)
  | .nil, file, tree, node, head, rest, depth, hcloses, hreadable, hcategory,
      hsibling, henough => by
      obtain ⟨depth, rfl⟩ := henough.exists_succ 1 hcloses.ne_nil (by decide)
      obtain ⟨token, behind, rfl, hends⟩ := hcloses
      have hnode : { node with sibling := none } = node := by rw [← hsibling]
      rw [reach_succ, attempt]
      simp only [Statements.tokens, List.nil_append, Statements.head?,
        Statements.nodes]
      rw [sequenceAfter_before, if_pos hends, hnode]
      rfl
  | .cons semicolon next statements, file, tree, node, head, rest, depth,
      hcloses, hreadable, hcategory, hsibling, henough => by
      simp only [Statements.tokens, List.cons_append, List.append_assoc,
        readable_cons, readable_append] at hreadable henough ⊢
      obtain ⟨depth, rfl⟩ :=
        henough.exists_succ 1 (List.cons_ne_nil _ _) (by decide)
      have hbehind : statements.tokens ++ rest ≠ [] := by simp [hcloses.ne_nil]
      have hstops := next.stopsBefore_of_avoids
        (statements.avoids (hcloses.avoids.mono (by decide)) (by decide))
      have hnext := next.reached file (tree.extend [node]) hbehind hstops
        hreadable.2.1 (henough.behind 1 (by simp) (by decide))
      have hrest := statements.reached file (tree.extend
          ({ node with sibling := some (tree.size + 1 + next.offset) } ::
            next.partNodes (tree.size + 1)))
        (next.node (tree.size + 1) none) head hcloses
        hreadable.2.2 (next.form_category _) rfl
          (henough.behind 1 (by simp +arith) (by decide))
      rw [next.size_linked tree node] at hrest
      have hsemicolon : ¬ semicolon.token.kind.endsSequence := by
        rw [List.mem_singleton.mp semicolon.kind_mem]
        decide
      rw [reach_succ, attempt, sequenceAfter_before, if_neg hsemicolon,
        bind_apply_of_ok
          (expect_before semicolon (by simp [next.tokens_ne_nil])),
        bind_apply_of_ok hnext, bind_apply_of_ok (next.link_before hcategory)]
      simpa [Statement.node, Statements.head?, Statements.nodes] using hrest

end

end TinyCompiler.Grammar
