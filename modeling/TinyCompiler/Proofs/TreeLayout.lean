import TinyCompiler.Proofs.Grammar
import TinyCompiler.Proofs.PhraseNotes
import TinyCompiler.Proofs.TreeAcyclicity

/-!
# The nodes of a derivation

The nodes of a phrase stand one behind the other in a tree: first those of its
parts, in order, and last its own.  A sequence has the nodes of its statements,
each statement with a link to the next one.  A walk over nodes laid out like
that gives back the phrase, and it ends from each of them.
-/

namespace TinyCompiler

/-! ## Nodes behind a tree -/

namespace Tree

/-- The tree with more nodes behind the last one. -/
def extend (tree : Tree) (nodes : List Node) : Tree :=
  { tree with nodes := tree.nodes ++ nodes.toArray }

@[simp] theorem size_extend (tree : Tree) (nodes : List Node) :
    (tree.extend nodes).size = tree.size + nodes.length := by
  simp [extend, size]

@[simp] theorem extend_extend (tree : Tree) (nodes more : List Node) :
    (tree.extend nodes).extend more = tree.extend (nodes ++ more) := by
  simp [extend]

theorem push_eq_extend (tree : Tree) (line : Nat) (form : Form) :
    tree.push line form = tree.extend [Node.fresh line form] := by
  simp [extend, push]

theorem get?_extend_of_lt {tree : Tree} {id : NodeId} (hid : id < tree.size)
    (nodes : List Node) : (tree.extend nodes).get? id = tree.get? id := by
  unfold extend get?
  exact Array.getElem?_append_left hid

theorem get?_extend_add (tree : Tree) (nodes : List Node) (index : Nat) :
    (tree.extend nodes).get? (tree.size + index) = nodes[index]? := by
  unfold extend get? size
  rw [Array.getElem?_append_right (Nat.le_add_right _ _)]
  simp

theorem Holds.extend {tree : Tree} {category : Category} {id : NodeId}
    (hholds : tree.Holds category id) (nodes : List Node) :
    (tree.extend nodes).Holds category id := by
  obtain ⟨node, hnode, hcategory⟩ := hholds
  exact ⟨node,
    by rw [get?_extend_of_lt (get?_eq_some_lt hnode), hnode], hcategory⟩

theorem holds_extend_last (tree : Tree) (nodes : List Node) (node : Node)
    {category : Category} (hcategory : node.form.category = category) :
    (tree.extend (nodes ++ [node])).Holds category (tree.size + nodes.length) :=
  ⟨node, by rw [get?_extend_add]; simp, hcategory⟩

/-- Of the nodes behind a tree the first can be linked to the last. -/
theorem setSibling_extend (tree : Tree) (node last : Node) (nodes : List Node)
    (hnode : node.form.category = .statement)
    (hlast : last.form.category = .statement) (hends : last.sibling = none) :
    (tree.extend (node :: (nodes ++ [last]))).setSibling tree.size
        (tree.size + 1 + nodes.length) =
      .ok (tree.extend
        ({ node with sibling := some (tree.size + 1 + nodes.length) } ::
        (nodes ++ [last]))) := by
  have hfirst : (tree.extend (node :: (nodes ++ [last]))).get?
      tree.size = some node :=
    tree.get?_extend_add _ 0
  have hbehind : (tree.extend (node :: (nodes ++ [last]))).get?
      (tree.size + 1 + nodes.length) = some last := by
    rw [Nat.add_assoc, get?_extend_add, Nat.add_comm 1]
    simp
  refine setSibling_eq_ok_iff.mpr
    ⟨⟨node, hfirst, hnode⟩, ⟨last, hbehind, hlast⟩,
    ⟨[tree.size + 1 + nodes.length], ?_, ?_⟩, ?_⟩
  · rw [siblings, chain, except_bind_of_ok (node_eq_ok_iff.mpr hbehind), hends]
    rfl
  · simp [Nat.add_assoc]
  · refine ext_get? (fun id => ?_) rfl
    rw [get?_update]
    by_cases hlt : id < tree.size
    · rw [if_neg (Nat.ne_of_gt hlt), get?_extend_of_lt hlt,
        get?_extend_of_lt hlt]
    · obtain ⟨index, rfl⟩ := Nat.exists_eq_add_of_le (Nat.le_of_not_lt hlt)
      rw [get?_extend_add, get?_extend_add]
      cases index with
      | zero => simp
      | succ index => simp

/-- The nodes stand in the tree from a number on. -/
def Carries (tree : Tree) (start : NodeId) (nodes : List Node) : Prop :=
  ∀ index, index < nodes.length → tree.get? (start + index) = nodes[index]?

theorem carries_append {tree : Tree} {start : NodeId} {nodes more : List Node} :
    tree.Carries start (nodes ++ more) ↔
      tree.Carries start nodes ∧ tree.Carries (start + nodes.length) more := by
  constructor
  · intro hcarries
    constructor
    · intro index hindex
      rw [hcarries index (by simp; omega), List.getElem?_append_left hindex]
    · intro index hindex
      rw [Nat.add_assoc, hcarries (nodes.length + index) (by simp; omega),
        List.getElem?_append_right (Nat.le_add_right _ _),
        Nat.add_sub_cancel_left]
  · rintro ⟨hnodes, hmore⟩ index hindex
    by_cases hlt : index < nodes.length
    · rw [hnodes index hlt, List.getElem?_append_left hlt]
    · obtain ⟨later, rfl⟩ := Nat.exists_eq_add_of_le (Nat.le_of_not_lt hlt)
      rw [← Nat.add_assoc, hmore later (by simp at hindex; omega),
        List.getElem?_append_right (Nat.le_add_right _ _),
        Nat.add_sub_cancel_left]

theorem carries_cons {tree : Tree} {start : NodeId} {node : Node}
    {nodes : List Node} :
    tree.Carries start (node :: nodes) ↔
      tree.get? start = some node ∧ tree.Carries (start + 1) nodes := by
  have hsingle : tree.Carries start [node] ↔ tree.get? start = some node := by
    simp [Carries]
  rw [← hsingle]
  change tree.Carries start ([node] ++ nodes) ↔ _
  exact carries_append

/-- A walk from each of so many nodes ends. -/
def WalksEnd (tree : Tree) (start : NodeId) (count : Nat) : Prop :=
  ∀ index < count, ∃ bound, tree.Unfolds bound (start + index)

theorem walksEnd_zero (tree : Tree) (start : NodeId) : tree.WalksEnd start 0 :=
  fun index hindex => absurd hindex (Nat.not_lt_zero index)

theorem WalksEnd.append {tree : Tree} {start : NodeId} {count more : Nat}
    (hfirst : tree.WalksEnd start count)
    (hsecond : tree.WalksEnd (start + count) more) :
    tree.WalksEnd start (count + more) := by
  intro index hindex
  by_cases hlt : index < count
  · exact hfirst index hlt
  · obtain ⟨later, rfl⟩ := Nat.exists_eq_add_of_le (Nat.le_of_not_lt hlt)
    rw [← Nat.add_assoc]
    exact hsecond later (by omega)

theorem walksEnd_one {tree : Tree} {start : NodeId}
    (hwalk : ∃ bound, tree.Unfolds bound start) : tree.WalksEnd start 1 := by
  intro index hindex
  obtain rfl := Nat.lt_one_iff.mp hindex
  exact hwalk

end Tree

/-! ## Expressions -/

namespace Expr

/-- How many nodes of an expression stand before its own. -/
def offset : Expr α → Nat
  | .const _ _ => 0
  | .var _ _ => 0
  | .op _ _ left right => left.offset + 1 + (right.offset + 1)

/-- The form of the node of an expression whose nodes start at a number. -/
def form : Expr α → NodeId → Form
  | .const _ value, _ => .const value
  | .var _ name, _ => .var name
  | .op _ operator left right, start =>
      .op operator (start + left.offset)
        (start + (left.offset + 1) + right.offset)

/-- The nodes of the operands of an expression. -/
def partNodes : Expr Nat → NodeId → List Node
  | .const _ _, _ => []
  | .var _ _, _ => []
  | .op _ _ left right, start =>
      left.partNodes start ++ [Node.fresh left.note (left.form start)] ++
        (right.partNodes (start + (left.offset + 1)) ++
          [Node.fresh right.note (right.form (start + (left.offset + 1)))])

def nodes (expr : Expr Nat) (start : NodeId) : List Node :=
  expr.partNodes start ++ [Node.fresh expr.note (expr.form start)]

@[simp] theorem length_partNodes (expr : Expr Nat) (start : NodeId) :
    (expr.partNodes start).length = expr.offset := by
  induction expr generalizing start with
  | const line value => rfl
  | var line name => rfl
  | op line operator left right ihLeft ihRight =>
      simp only [partNodes, offset, List.length_append, List.length_singleton,
        ihLeft, ihRight]

@[simp] theorem length_nodes (expr : Expr Nat) (start : NodeId) :
    (expr.nodes start).length = expr.offset + 1 := by
  simp [nodes]

theorem nodes_op (line : Nat) (operator : Operator) (left right : Expr Nat)
    (start : NodeId) :
    (Expr.op line operator left right).nodes start =
      left.nodes start ++ right.nodes (start + (left.offset + 1)) ++
        [Node.fresh line ((Expr.op line operator left right).form start)] := rfl

theorem form_category (expr : Expr α) (start : NodeId) :
    (expr.form start).category = .expression := by
  cases expr <;> rfl

theorem holds_extend_nodes (tree : Tree) (expr : Expr Nat) :
    (tree.extend (expr.nodes tree.size)).Holds .expression
    (tree.size + expr.offset) := by
  have hholds := tree.holds_extend_last (expr.partNodes tree.size)
    (Node.fresh expr.note (expr.form tree.size)) (expr.form_category tree.size)
  rwa [length_partNodes] at hholds

/-- A walk over the nodes of an expression gives it back. -/
theorem exprWithin_of_carries {tree : Tree} (expr : Expr Nat) {start : NodeId}
    {bound : Nat} (hcarries : tree.Carries start (expr.nodes start))
    (hbound : expr.offset < bound) :
    ∃ phrase, tree.exprWithin bound (start + expr.offset) = .ok phrase ∧
      phrase.mapNote Mark.line = expr := by
  induction expr generalizing start bound with
  | const line value =>
      obtain ⟨hnode, -⟩ := Tree.carries_cons.mp hcarries
      obtain ⟨bound, rfl⟩ : ∃ less, bound = less + 1 := ⟨bound - 1, by omega⟩
      exact ⟨_, Tree.exprWithin_succ_eq_ok_iff.mpr
        ⟨_, hnode, .const value⟩, rfl⟩
  | var line name =>
      obtain ⟨hnode, -⟩ := Tree.carries_cons.mp hcarries
      obtain ⟨bound, rfl⟩ : ∃ less, bound = less + 1 := ⟨bound - 1, by omega⟩
      exact ⟨_, Tree.exprWithin_succ_eq_ok_iff.mpr ⟨_, hnode, .var name⟩, rfl⟩
  | op line operator left right ihLeft ihRight =>
      simp only [offset] at hbound ⊢
      obtain ⟨bound, rfl⟩ : ∃ less, bound = less + 1 := ⟨bound - 1, by omega⟩
      rw [nodes_op] at hcarries
      obtain ⟨hparts, hown⟩ := Tree.carries_append.mp hcarries
      obtain ⟨hleft, hright⟩ := Tree.carries_append.mp hparts
      obtain ⟨hnode, -⟩ := Tree.carries_cons.mp hown
      rw [length_nodes] at hright
      rw [List.length_append, length_nodes, length_nodes] at hnode
      obtain ⟨leftPhrase, hleftWalk, hleftLines⟩ := ihLeft hleft
        (show left.offset < bound by omega)
      obtain ⟨rightPhrase, hrightWalk, hrightLines⟩ := ihRight hright
        (show right.offset < bound by omega)
      exact ⟨_, Tree.exprWithin_succ_eq_ok_iff.mpr
        ⟨_, hnode, .op hleftWalk hrightWalk⟩,
        by rw [mapNote, hleftLines, hrightLines]; rfl⟩

theorem walksEnd_of_carries {tree : Tree} (expr : Expr Nat) {start : NodeId}
    (hcarries : tree.Carries start (expr.nodes start)) :
    tree.WalksEnd start (expr.offset + 1) := by
  induction expr generalizing start with
  | const line value =>
      obtain ⟨phrase, hphrase, -⟩ :=
        (Expr.const line value).exprWithin_of_carries hcarries
          (Nat.lt_succ_self _)
      exact Tree.walksEnd_one ⟨_, .inl ⟨phrase, hphrase⟩⟩
  | var line name =>
      obtain ⟨phrase, hphrase, -⟩ :=
        (Expr.var line name).exprWithin_of_carries hcarries (Nat.lt_succ_self _)
      exact Tree.walksEnd_one ⟨_, .inl ⟨phrase, hphrase⟩⟩
  | op line operator left right ihLeft ihRight =>
      obtain ⟨phrase, hphrase, -⟩ :=
        (Expr.op line operator left right).exprWithin_of_carries hcarries
          (Nat.lt_succ_self _)
      rw [nodes_op] at hcarries
      obtain ⟨hparts, -⟩ := Tree.carries_append.mp hcarries
      obtain ⟨hleft, hright⟩ := Tree.carries_append.mp hparts
      rw [length_nodes] at hright
      have hown : ∃ bound, tree.Unfolds bound
          (start + (left.offset + 1 + (right.offset + 1))) :=
            ⟨_, .inl ⟨phrase, hphrase⟩⟩
      exact ((ihLeft hleft).append (ihRight hright)).append
        (Tree.walksEnd_one hown)

end Expr

/-! ## Statements -/

namespace Grammar

mutual

def Statement.offset : Statement → Nat
  | .ifThen _ test _ thenPart _ => test.expr.offset + 1 + thenPart.count
  | .ifElse _ test _ thenPart _ elsePart _ =>
      test.expr.offset + 1 + thenPart.count + elsePart.count
  | .repeatUntil _ body _ test => body.count + (test.expr.offset + 1)
  | .assign _ _ value => value.expr.offset + 1
  | .read _ _ => 0
  | .write _ value => value.expr.offset + 1

/-- How many nodes a sequence has. -/
def Sequence.count : Sequence → Nat
  | .mk first rest => first.offset + (1 + rest.count)

def Statements.count : Statements → Nat
  | .nil => 0
  | .cons _ next rest => next.offset + (1 + rest.count)

end

/-- The number of the first statement of a sequence whose nodes start at a
number. -/
def Sequence.head : Sequence → NodeId → NodeId
  | .mk first _, start => start + first.offset

/-- The next statement, if there is one, when its nodes start at a number. -/
def Statements.head? : Statements → NodeId → Option NodeId
  | .nil, _ => none
  | .cons _ next _, start => some (start + next.offset)

namespace Statement

def line : Statement → Nat
  | .ifThen ifWord _ _ _ _ => ifWord.token.line
  | .ifElse ifWord _ _ _ _ _ _ => ifWord.token.line
  | .repeatUntil repeatWord _ _ _ => repeatWord.token.line
  | .assign target _ _ => target.token.line
  | .read readWord _ => readWord.token.line
  | .write writeWord _ => writeWord.token.line

def form : Statement → NodeId → Form
  | .ifThen _ test _ thenPart _, start =>
      .ifElse (start + test.expr.offset)
        (thenPart.head (start + (test.expr.offset + 1))) none
  | .ifElse _ test _ thenPart _ elsePart _, start =>
      .ifElse (start + test.expr.offset)
        (thenPart.head (start + (test.expr.offset + 1)))
        (some (elsePart.head (start + (test.expr.offset + 1 + thenPart.count))))
  | .repeatUntil _ body _ test, start =>
      .repeatUntil (body.head start) (start + body.count + test.expr.offset)
  | .assign target _ value, start =>
      .assign target.token.text (start + value.expr.offset)
  | .read _ target, _ => .read target.token.text
  | .write _ value, start => .write (start + value.expr.offset)

/-- The node of a statement with the next statement of its sequence. -/
def node (statement : Statement) (start : NodeId) (sibling : Option NodeId) :
    Node where
  form := statement.form start
  line := statement.line
  sibling := sibling
  type := .void

theorem form_category (statement : Statement) (start : NodeId) :
    (statement.form start).category = .statement := by
  cases statement <;> rfl

end Statement

mutual

def Statement.partNodes : Statement → NodeId → List Node
  | .ifThen _ test _ thenPart _, start =>
      test.expr.nodes start ++ thenPart.nodes (start + (test.expr.offset + 1))
  | .ifElse _ test _ thenPart _ elsePart _, start =>
      test.expr.nodes start ++
        thenPart.nodes (start + (test.expr.offset + 1)) ++
        elsePart.nodes (start + (test.expr.offset + 1 + thenPart.count))
  | .repeatUntil _ body _ test, start =>
      body.nodes start ++ test.expr.nodes (start + body.count)
  | .assign _ _ value, start => value.expr.nodes start
  | .read _ _, _ => []
  | .write _ value, start => value.expr.nodes start

def Sequence.nodes : Sequence → NodeId → List Node
  | .mk first rest, start =>
      first.partNodes start ++
        first.node start (rest.head? (start + first.offset + 1)) ::
          rest.nodes (start + first.offset + 1)

def Statements.nodes : Statements → NodeId → List Node
  | .nil, _ => []
  | .cons _ next rest, start =>
      next.partNodes start ++
        next.node start (rest.head? (start + next.offset + 1)) ::
          rest.nodes (start + next.offset + 1)

end

mutual

@[simp] theorem Statement.length_partNodes :
    ∀ (statement : Statement) (start : NodeId),
    (statement.partNodes start).length = statement.offset
  | .ifThen ifWord test thenWord thenPart endWord, start => by
      simp [Statement.partNodes, Statement.offset, thenPart.length_nodes]
  | .ifElse ifWord test thenWord thenPart elseWord elsePart endWord, start => by
      simp only [Statement.partNodes, Statement.offset, List.length_append,
        Expr.length_nodes, thenPart.length_nodes, elsePart.length_nodes]
  | .repeatUntil repeatWord body untilWord test, start => by
      simp [Statement.partNodes, Statement.offset, body.length_nodes]
  | .assign target sign value, start => by
      simp [Statement.partNodes, Statement.offset]
  | .read readWord target, start => rfl
  | .write writeWord value, start => by
      simp [Statement.partNodes, Statement.offset]

@[simp] theorem Sequence.length_nodes :
    ∀ (sequence : Sequence) (start : NodeId),
    (sequence.nodes start).length = sequence.count
  | .mk first rest, start => by
      simp only [Sequence.nodes, Sequence.count, List.length_append,
        List.length_cons, first.length_partNodes, rest.length_nodes]
      omega

@[simp] theorem Statements.length_nodes :
    ∀ (rest : Statements) (start : NodeId),
    (rest.nodes start).length = rest.count
  | .nil, start => rfl
  | .cons semicolon next rest, start => by
      simp only [Statements.nodes, Statements.count, List.length_append,
        List.length_cons, next.length_partNodes, rest.length_nodes]
      omega

end

section Walks

variable {tree : Tree}

/-- A walk from a statement gives it and those behind it. -/
theorem blockWithin_of_node {statement : Statement} {rest : Statements}
    {start restStart : NodeId} {bound : Nat}
    (hnode : tree.get? (start + statement.offset) =
      some (statement.node start (rest.head? restStart)))
    (hfirst : ∃ phrase,
      Tree.StmtAssembled (tree.exprWithin bound) (tree.blockWithin bound)
      ⟨start + statement.offset, statement.line, .void⟩
        (statement.form start) phrase ∧
        phrase.mapNote Mark.line = statement.stmt)
    (hrest : ∀ next, rest.head? restStart = some next →
      ∃ phrase, tree.blockWithin bound next = .ok phrase ∧
        phrase.mapNote Mark.line = rest.block) :
    ∃ phrase, tree.blockWithin (bound + 1)
      (start + statement.offset) = .ok phrase ∧
      phrase.mapNote Mark.line = .cons statement.stmt rest.block := by
  obtain ⟨first, hassembled, hlines⟩ := hfirst
  cases rest with
  | nil =>
      refine ⟨.cons first .nil, Tree.blockWithin_succ_eq_ok_iff.mpr
        ⟨_, first, .nil, hnode, hassembled, .inl ⟨rfl, rfl⟩, rfl⟩, ?_⟩
      rw [Block.mapNote, hlines]
      rfl
  | cons semicolon next rest =>
      obtain ⟨others, hwalk, hotherLines⟩ := hrest _ rfl
      refine ⟨.cons first others, Tree.blockWithin_succ_eq_ok_iff.mpr
        ⟨_, first, others, hnode, hassembled, .inr ⟨_, rfl, hwalk⟩, rfl⟩, ?_⟩
      rw [Block.mapNote, hlines, hotherLines]

mutual

theorem Statement.assembled_of_carries :
    ∀ (statement : Statement) {start : NodeId} {bound : Nat} (mark : Mark),
      tree.Carries start (statement.partNodes start) →
        statement.offset ≤ bound →
      mark.line = statement.line →
        ∃ phrase, Tree.StmtAssembled (tree.exprWithin bound)
          (tree.blockWithin bound) mark
          (statement.form start) phrase ∧ phrase.mapNote Mark.line =
            statement.stmt
  | .ifThen ifWord test thenWord thenPart endWord, start, bound, mark, hcarries,
      hbound, hline => by
      obtain ⟨htest, hthen⟩ := Tree.carries_append.mp hcarries
      rw [Expr.length_nodes] at hthen
      simp only [Statement.offset] at hbound
      obtain ⟨testPhrase, htestWalk, htestLines⟩ :=
        test.expr.exprWithin_of_carries htest
          (show test.expr.offset < bound by omega)
      obtain ⟨thenPhrase, hthenWalk, hthenLines⟩ :=
        thenPart.blockWithin_of_carries hthen
          (show thenPart.count ≤ bound by omega)
      exact ⟨_, .ifThen htestWalk hthenWalk,
        by rw [Stmt.mapNote, htestLines, hthenLines, hline]; rfl⟩
  | .ifElse ifWord test thenWord thenPart elseWord elsePart endWord, start,
      bound, mark, hcarries, hbound, hline => by
      obtain ⟨hboth, helse⟩ := Tree.carries_append.mp hcarries
      obtain ⟨htest, hthen⟩ := Tree.carries_append.mp hboth
      rw [List.length_append, Expr.length_nodes, thenPart.length_nodes] at helse
      rw [Expr.length_nodes] at hthen
      simp only [Statement.offset] at hbound
      obtain ⟨testPhrase, htestWalk, htestLines⟩ :=
        test.expr.exprWithin_of_carries htest
          (show test.expr.offset < bound by omega)
      obtain ⟨thenPhrase, hthenWalk, hthenLines⟩ :=
        thenPart.blockWithin_of_carries hthen
          (show thenPart.count ≤ bound by omega)
      obtain ⟨elsePhrase, helseWalk, helseLines⟩ :=
        elsePart.blockWithin_of_carries helse
          (show elsePart.count ≤ bound by omega)
      exact ⟨_, .ifElse htestWalk hthenWalk helseWalk,
        by rw [Stmt.mapNote, htestLines, hthenLines, helseLines, hline]; rfl⟩
  | .repeatUntil repeatWord body untilWord test, start, bound, mark, hcarries,
      hbound, hline => by
      obtain ⟨hbody, htest⟩ := Tree.carries_append.mp hcarries
      rw [body.length_nodes] at htest
      simp only [Statement.offset] at hbound
      obtain ⟨bodyPhrase, hbodyWalk, hbodyLines⟩ :=
        body.blockWithin_of_carries hbody (show body.count ≤ bound by omega)
      obtain ⟨testPhrase, htestWalk, htestLines⟩ :=
        test.expr.exprWithin_of_carries htest
          (show test.expr.offset < bound by omega)
      exact ⟨_, .repeatUntil hbodyWalk htestWalk,
        by rw [Stmt.mapNote, hbodyLines, htestLines, hline]; rfl⟩
  | .assign target sign value, start, bound, mark, hcarries, hbound, hline => by
      obtain ⟨phrase, hwalk, hlines⟩ :=
        value.expr.exprWithin_of_carries hcarries hbound
      exact ⟨_, .assign hwalk, by rw [Stmt.mapNote, hlines, hline]; rfl⟩
  | .read readWord target, start, bound, mark, hcarries, hbound, hline =>
      ⟨_, .read target.token.text, by rw [Stmt.mapNote, hline]; rfl⟩
  | .write writeWord value, start, bound, mark, hcarries, hbound, hline => by
      obtain ⟨phrase, hwalk, hlines⟩ :=
        value.expr.exprWithin_of_carries hcarries hbound
      exact ⟨_, .write hwalk, by rw [Stmt.mapNote, hlines, hline]; rfl⟩

theorem Sequence.blockWithin_of_carries :
    ∀ (sequence : Sequence) {start : NodeId} {bound : Nat},
      tree.Carries start (sequence.nodes start) → sequence.count ≤ bound →
        ∃ phrase, tree.blockWithin bound (sequence.head start) = .ok phrase ∧
          phrase.mapNote Mark.line = sequence.block
  | .mk first rest, start, bound, hcarries, hbound => by
      obtain ⟨hparts, hown⟩ := Tree.carries_append.mp hcarries
      rw [first.length_partNodes] at hown
      obtain ⟨hnode, hrest⟩ := Tree.carries_cons.mp hown
      simp only [Sequence.count] at hbound
      obtain ⟨bound, rfl⟩ : ∃ less, bound = less + 1 := ⟨bound - 1, by omega⟩
      exact blockWithin_of_node hnode
        (first.assembled_of_carries ⟨_, _, _⟩ hparts (by omega) rfl)
        (rest.blockWithin_of_carries hrest (by omega))

theorem Statements.blockWithin_of_carries :
    ∀ (rest : Statements) {start : NodeId} {bound : Nat},
      tree.Carries start (rest.nodes start) → rest.count ≤ bound →
        ∀ next, rest.head? start = some next →
          ∃ phrase, tree.blockWithin bound next = .ok phrase ∧
            phrase.mapNote Mark.line = rest.block
  | .nil, start, bound, hcarries, hbound, next, hnext =>
      by simp [Statements.head?] at hnext
  | .cons semicolon first rest, start, bound, hcarries, hbound, _, rfl => by
      obtain ⟨hparts, hown⟩ := Tree.carries_append.mp hcarries
      rw [first.length_partNodes] at hown
      obtain ⟨hnode, hrest⟩ := Tree.carries_cons.mp hown
      simp only [Statements.count] at hbound
      obtain ⟨bound, rfl⟩ : ∃ less, bound = less + 1 := ⟨bound - 1, by omega⟩
      exact blockWithin_of_node hnode
        (first.assembled_of_carries ⟨_, _, _⟩ hparts (by omega) rfl)
        (rest.blockWithin_of_carries hrest (by omega))

end

mutual

theorem Statement.walksEnd_of_carries :
    ∀ (statement : Statement) {start : NodeId},
    tree.Carries start (statement.partNodes start) →
      tree.WalksEnd start statement.offset
  | .ifThen ifWord test thenWord thenPart endWord, start, hcarries => by
      obtain ⟨htest, hthen⟩ := Tree.carries_append.mp hcarries
      rw [Expr.length_nodes] at hthen
      exact (test.expr.walksEnd_of_carries htest).append
        (thenPart.walksEnd_of_carries hthen)
  | .ifElse ifWord test thenWord thenPart elseWord elsePart endWord, start,
      hcarries => by
      obtain ⟨hboth, helse⟩ := Tree.carries_append.mp hcarries
      obtain ⟨htest, hthen⟩ := Tree.carries_append.mp hboth
      rw [List.length_append, Expr.length_nodes, thenPart.length_nodes] at helse
      rw [Expr.length_nodes] at hthen
      exact ((test.expr.walksEnd_of_carries htest).append
        (thenPart.walksEnd_of_carries hthen)).append
          (elsePart.walksEnd_of_carries helse)
  | .repeatUntil repeatWord body untilWord test, start, hcarries => by
      obtain ⟨hbody, htest⟩ := Tree.carries_append.mp hcarries
      rw [body.length_nodes] at htest
      exact (body.walksEnd_of_carries hbody).append
        (test.expr.walksEnd_of_carries htest)
  | .assign target sign value, start, hcarries =>
      value.expr.walksEnd_of_carries hcarries
  | .read readWord target, start, hcarries => Tree.walksEnd_zero tree start
  | .write writeWord value, start, hcarries =>
      value.expr.walksEnd_of_carries hcarries

theorem Sequence.walksEnd_of_carries : ∀ (sequence : Sequence) {start : NodeId},
    tree.Carries start (sequence.nodes start) →
      tree.WalksEnd start sequence.count
  | .mk first rest, start, hcarries => by
      obtain ⟨phrase, hphrase, -⟩ :=
        (Sequence.mk first rest).blockWithin_of_carries hcarries (Nat.le_refl _)
      have hown : ∃ bound, tree.Unfolds bound (start + first.offset) :=
        ⟨_, .inr ⟨phrase, hphrase⟩⟩
      obtain ⟨hparts, hrest⟩ := Tree.carries_append.mp hcarries
      rw [first.length_partNodes] at hrest
      exact (first.walksEnd_of_carries hparts).append
        ((Tree.walksEnd_one hown).append
        (rest.walksEnd_of_carries (Tree.carries_cons.mp hrest).2))

theorem Statements.walksEnd_of_carries : ∀ (rest : Statements) {start : NodeId},
    tree.Carries start (rest.nodes start) → tree.WalksEnd start rest.count
  | .nil, start, hcarries => Tree.walksEnd_zero tree start
  | .cons semicolon next rest, start, hcarries => by
      obtain ⟨phrase, hphrase, -⟩ :=
        (Statements.cons semicolon next rest).blockWithin_of_carries
        hcarries (Nat.le_refl _) _ rfl
      have hown : ∃ bound, tree.Unfolds bound (start + next.offset) :=
        ⟨_, .inr ⟨phrase, hphrase⟩⟩
      obtain ⟨hparts, hrest⟩ := Tree.carries_append.mp hcarries
      rw [next.length_partNodes] at hrest
      exact (next.walksEnd_of_carries hparts).append
        ((Tree.walksEnd_one hown).append
        (rest.walksEnd_of_carries (Tree.carries_cons.mp hrest).2))

end

end Walks

/-! ## The tree of a program -/

/-- The tree with the nodes of a sequence and no others. -/
def Sequence.tree (sequence : Sequence) : Tree where
  nodes := (sequence.nodes 0).toArray
  root := some (sequence.head 0)

theorem Sequence.tree_carries (sequence : Sequence) :
    sequence.tree.Carries 0 (sequence.nodes 0) := by
  intro index _
  simp [Sequence.tree, Tree.get?]

theorem Sequence.size_tree (sequence : Sequence) :
    sequence.tree.size = sequence.count := by
  simp [Sequence.tree, Tree.size]

/-- The tree of a sequence reads as the phrase of the sequence. -/
theorem Sequence.program_tree (sequence : Sequence) :
    ∃ program, sequence.tree.program = .ok program ∧
      program.mapNote Mark.line = sequence.block :=
  sequence.blockWithin_of_carries sequence.tree_carries
    (sequence.size_tree ▸ Nat.le_succ sequence.tree.size)

theorem Sequence.tree_acyclic (sequence : Sequence)
    (hgood : sequence.tree.WellFormed) :
    sequence.tree.Acyclic := by
  refine hgood.acyclic_of_unfolds fun id hid => ?_
  rw [sequence.size_tree] at hid
  have hwalk := sequence.walksEnd_of_carries sequence.tree_carries id hid
  rwa [Nat.zero_add] at hwalk

end Grammar
end TinyCompiler
