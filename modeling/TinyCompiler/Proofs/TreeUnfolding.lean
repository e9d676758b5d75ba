import TinyCompiler.Proofs.TreeInvariant
import TinyCompiler.Tree.Unfold

/-!
# Unfolding a tree

When a walk over a tree ends, the phrase at a node is put together from the
phrases at its parts.  The relations below say how, one case for each form, so
that facts about unfolded phrases are proved form by form, and what they leave
to do for a whole program is one induction.
-/

namespace TinyCompiler
namespace Tree

variable {expr : NodeId → Except Fault (Expr Mark)}
  {block : NodeId → Except Fault (Block Mark)} {mark : Mark} {form : Form}

inductive ExprAssembled (expr : NodeId → Except Fault (Expr Mark))
    (mark : Mark) :
    Form → Expr Mark → Prop where
  | const (value : Int32) : ExprAssembled expr mark (.const value)
      (.const mark value)
  | var (name : String) : ExprAssembled expr mark (.var name) (.var mark name)
  | op {operator : Operator} {left right : NodeId}
      {leftExpr rightExpr : Expr Mark} :
      expr left = .ok leftExpr → expr right = .ok rightExpr →
        ExprAssembled expr mark (.op operator left right)
          (.op mark operator leftExpr rightExpr)

inductive StmtAssembled (expr : NodeId → Except Fault (Expr Mark))
    (block : NodeId → Except Fault (Block Mark)) (mark : Mark) :
    Form → Stmt Mark → Prop where
  | read (name : String) : StmtAssembled expr block mark (.read name)
      (.read mark name)
  | assign {name : String} {value : NodeId} {valueExpr : Expr Mark} :
      expr value = .ok valueExpr →
        StmtAssembled expr block mark (.assign name value)
          (.assign mark name valueExpr)
  | write {value : NodeId} {valueExpr : Expr Mark} :
      expr value = .ok valueExpr →
        StmtAssembled expr block mark (.write value) (.write mark valueExpr)
  | ifThen {test thenPart : NodeId} {testExpr : Expr Mark}
      {thenBlock : Block Mark} :
      expr test = .ok testExpr → block thenPart = .ok thenBlock →
        StmtAssembled expr block mark (.ifElse test thenPart none)
          (.ifThen mark testExpr thenBlock)
  | ifElse {test thenPart elsePart : NodeId} {testExpr : Expr Mark}
      {thenBlock elseBlock : Block Mark} :
      expr test = .ok testExpr → block thenPart = .ok thenBlock →
        block elsePart = .ok elseBlock →
          StmtAssembled expr block mark (.ifElse test thenPart (some elsePart))
            (.ifElse mark testExpr thenBlock elseBlock)
  | repeatUntil {body test : NodeId} {bodyBlock : Block Mark}
      {testExpr : Expr Mark} :
      block body = .ok bodyBlock → expr test = .ok testExpr →
        StmtAssembled expr block mark (.repeatUntil body test)
          (.repeatUntil mark bodyBlock testExpr)

theorem ExprAssembled.category_eq {phrase : Expr Mark}
    (hphrase : ExprAssembled expr mark form phrase) :
    form.category = .expression := by
  cases hphrase <;> rfl

theorem StmtAssembled.category_eq {phrase : Stmt Mark}
    (hphrase : StmtAssembled expr block mark form phrase) :
    form.category = .statement := by
  cases hphrase <;> rfl

/-- Only what is read at the parts of a form counts. -/
theorem StmtAssembled.congr {otherExpr : NodeId → Except Fault (Expr Mark)}
    {otherBlock : NodeId → Except Fault (Block Mark)} {phrase : Stmt Mark}
    (hphrase : StmtAssembled expr block mark form phrase)
    (hexpr : ∀ part,
      (.expression, part) ∈ form.parts → otherExpr part = expr part)
    (hblock : ∀ part,
      (.statement, part) ∈ form.parts → otherBlock part = block part) :
    StmtAssembled otherExpr otherBlock mark form phrase := by
  simp only [Form.parts] at hexpr hblock
  cases hphrase with
  | read name => exact .read name
  | assign hvalue => exact .assign ((hexpr _ (by simp)).trans hvalue)
  | write hvalue => exact .write ((hexpr _ (by simp)).trans hvalue)
  | ifThen htest hthen =>
      exact .ifThen ((hexpr _ (by simp)).trans htest)
        ((hblock _ (by simp)).trans hthen)
  | ifElse htest hthen helse =>
      exact .ifElse ((hexpr _ (by simp)).trans htest)
        ((hblock _ (by simp)).trans hthen)
        ((hblock _ (by simp)).trans helse)
  | repeatUntil hbody htest =>
      exact .repeatUntil ((hblock _ (by simp)).trans hbody)
        ((hexpr _ (by simp)).trans htest)

theorem stmtOf_eq_ok_iff {phrase : Stmt Mark} :
    stmtOf expr block mark form = .ok phrase ↔
      StmtAssembled expr block mark form phrase := by
  constructor
  · intro hphrase
    cases form with
    | read name =>
        injection hphrase with hphrase
        exact hphrase ▸ .read name
    | assign name value =>
        obtain ⟨valueExpr, hvalue, hphrase⟩ := except_bind_eq_ok.mp hphrase
        injection hphrase with hphrase
        exact hphrase ▸ .assign hvalue
    | write value =>
        obtain ⟨valueExpr, hvalue, hphrase⟩ := except_bind_eq_ok.mp hphrase
        injection hphrase with hphrase
        exact hphrase ▸ .write hvalue
    | ifElse test thenPart elsePart =>
        cases elsePart with
        | none =>
            obtain ⟨testExpr, htest, hphrase⟩ := except_bind_eq_ok.mp hphrase
            obtain ⟨thenBlock, hthen, hphrase⟩ := except_bind_eq_ok.mp hphrase
            injection hphrase with hphrase
            exact hphrase ▸ .ifThen htest hthen
        | some elsePart =>
            obtain ⟨testExpr, htest, hphrase⟩ := except_bind_eq_ok.mp hphrase
            obtain ⟨thenBlock, hthen, hphrase⟩ := except_bind_eq_ok.mp hphrase
            obtain ⟨elseBlock, helse, hphrase⟩ := except_bind_eq_ok.mp hphrase
            injection hphrase with hphrase
            exact hphrase ▸ .ifElse htest hthen helse
    | repeatUntil body test =>
        obtain ⟨bodyBlock, hbody, hphrase⟩ := except_bind_eq_ok.mp hphrase
        obtain ⟨testExpr, htest, hphrase⟩ := except_bind_eq_ok.mp hphrase
        injection hphrase with hphrase
        exact hphrase ▸ .repeatUntil hbody htest
    | op operator left right => simp [stmtOf] at hphrase
    | const value => simp [stmtOf] at hphrase
    | var name => simp [stmtOf] at hphrase
  · intro hphrase
    cases hphrase with
    | read name => rfl
    | assign hvalue => rw [stmtOf, hvalue]; rfl
    | write hvalue => rw [stmtOf, hvalue]; rfl
    | ifThen htest hthen => rw [stmtOf, htest, hthen]; rfl
    | ifElse htest hthen helse => rw [stmtOf, htest, hthen, helse]; rfl
    | repeatUntil hbody htest => rw [stmtOf, hbody, htest]; rfl

theorem stmtAssembled_exists {expr : NodeId → Except Fault (Expr Mark)}
    {block : NodeId → Except Fault (Block Mark)} (mark : Mark) {form : Form}
    (hcategory : form.category = .statement)
    (hexpr : ∀ id, (.expression, id) ∈ form.parts → ∃ phrase,
      expr id = .ok phrase)
    (hblock : ∀ id, (.statement, id) ∈ form.parts → ∃ phrase,
      block id = .ok phrase) :
    ∃ phrase, StmtAssembled expr block mark form phrase := by
  cases form with
  | read name => exact ⟨_, .read name⟩
  | assign name value =>
      obtain ⟨valueExpr, hvalue⟩ := hexpr value (by simp [Form.parts])
      exact ⟨_, .assign hvalue⟩
  | write value =>
      obtain ⟨valueExpr, hvalue⟩ := hexpr value (by simp [Form.parts])
      exact ⟨_, .write hvalue⟩
  | ifElse test thenPart elsePart =>
      obtain ⟨testExpr, htest⟩ := hexpr test (by simp [Form.parts])
      obtain ⟨thenBlock, hthen⟩ := hblock thenPart (by simp [Form.parts])
      cases elsePart with
      | none => exact ⟨_, .ifThen htest hthen⟩
      | some elsePart =>
          obtain ⟨elseBlock, helse⟩ := hblock elsePart (by simp [Form.parts])
          exact ⟨_, .ifElse htest hthen helse⟩
  | repeatUntil body test =>
      obtain ⟨bodyBlock, hbody⟩ := hblock body (by simp [Form.parts])
      obtain ⟨testExpr, htest⟩ := hexpr test (by simp [Form.parts])
      exact ⟨_, .repeatUntil hbody htest⟩
  | op operator left right => simp [Form.category] at hcategory
  | const value => simp [Form.category] at hcategory
  | var name => simp [Form.category] at hcategory

theorem exprAssembled_exists {expr : NodeId → Except Fault (Expr Mark)}
    (mark : Mark) {form : Form} (hcategory : form.category = .expression)
    (hexpr : ∀ id, (.expression, id) ∈ form.parts → ∃ phrase,
      expr id = .ok phrase) :
    ∃ phrase, ExprAssembled expr mark form phrase := by
  cases form with
  | const value => exact ⟨_, .const value⟩
  | var name => exact ⟨_, .var name⟩
  | op operator left right =>
      obtain ⟨leftExpr, hleft⟩ := hexpr left (by simp [Form.parts])
      obtain ⟨rightExpr, hright⟩ := hexpr right (by simp [Form.parts])
      exact ⟨_, .op hleft hright⟩
  | _ => simp [Form.category] at hcategory

theorem exprWithin_succ_eq_ok_iff {tree : Tree} {bound : Nat} {id : NodeId}
    {phrase : Expr Mark} :
    tree.exprWithin (bound + 1) id = .ok phrase ↔
      ∃ node, tree.get? id = some node ∧
        ExprAssembled (tree.exprWithin bound) (node.mark id)
          node.form phrase := by
  rw [exprWithin, except_bind_eq_ok]
  simp only [node_eq_ok_iff]
  refine exists_congr fun node => and_congr_right fun _ => ?_
  constructor
  · intro hphrase
    cases hform : node.form with
    | const value =>
        rw [hform] at hphrase
        injection hphrase with hphrase
        exact hphrase ▸ .const value
    | var name =>
        rw [hform] at hphrase
        injection hphrase with hphrase
        exact hphrase ▸ .var name
    | op operator left right =>
        rw [hform] at hphrase
        obtain ⟨leftExpr, hleft, hphrase⟩ := except_bind_eq_ok.mp hphrase
        obtain ⟨rightExpr, hright, hphrase⟩ := except_bind_eq_ok.mp hphrase
        injection hphrase with hphrase
        exact hphrase ▸ .op hleft hright
    | _ => simp [hform] at hphrase
  · intro hphrase
    cases hform : node.form with
    | const value => rw [hform] at hphrase; cases hphrase; rfl
    | var name => rw [hform] at hphrase; cases hphrase; rfl
    | op operator left right =>
        rw [hform] at hphrase
        cases hphrase with
        | op hleft hright => simp only [hleft, hright]; rfl
    | _ => rw [hform] at hphrase; cases hphrase

theorem blockWithin_succ_eq_ok_iff {tree : Tree} {bound : Nat} {id : NodeId}
    {phrase : Block Mark} :
    tree.blockWithin (bound + 1) id = .ok phrase ↔
      ∃ node first rest, tree.get? id = some node ∧
        StmtAssembled (tree.exprWithin bound) (tree.blockWithin bound)
          (node.mark id)
          node.form first ∧
        (node.sibling = none ∧ rest = .nil ∨
          ∃ next, node.sibling = some next ∧
            tree.blockWithin bound next = .ok rest) ∧
        phrase = .cons first rest := by
  rw [blockWithin, except_bind_eq_ok]
  simp only [node_eq_ok_iff, except_bind_eq_ok, stmtOf_eq_ok_iff]
  constructor
  · rintro ⟨node, hnode, first, hfirst, hphrase⟩
    cases hsibling : node.sibling with
    | none =>
        rw [hsibling] at hphrase
        injection hphrase with hphrase
        exact ⟨node, first, .nil, hnode, hfirst,
          .inl ⟨hsibling, rfl⟩, hphrase.symm⟩
    | some next =>
        rw [hsibling] at hphrase
        obtain ⟨rest, hrest, hphrase⟩ := except_bind_eq_ok.mp hphrase
        injection hphrase with hphrase
        exact ⟨node, first, rest, hnode, hfirst,
          .inr ⟨next, hsibling, hrest⟩, hphrase.symm⟩
  · rintro ⟨node, first, rest, hnode, hfirst, hcase, rfl⟩
    refine ⟨node, hnode, first, hfirst, ?_⟩
    rcases hcase with ⟨hsibling, rfl⟩ | ⟨next, hsibling, hrest⟩
    · rw [hsibling]
      rfl
    · simp only [hsibling, hrest]
      rfl

/-! ## Induction over what a tree unfolds to -/

section Induction

variable {tree : Tree} (exprMotive : Nat → NodeId → Expr Mark → Prop)
  (blockMotive : Nat → List NodeId → Block Mark → Prop)
    (hgood : tree.WellFormed)
  (hexpr : ∀ bound id node phrase,
    tree.get? id = some node → node.sibling = none →
    ExprAssembled (tree.exprWithin bound) (node.mark id) node.form phrase →
      (∀ part found,
        tree.exprWithin bound part = .ok found → exprMotive bound part found) →
        exprMotive (bound + 1) id phrase)

include hgood hexpr

theorem WellFormed.exprWithin_induction (bound : Nat) (id : NodeId)
    (phrase : Expr Mark) (hphrase : tree.exprWithin bound id = .ok phrase) :
    exprMotive bound id phrase := by
  induction bound generalizing id phrase with
  | zero => simp [exprWithin] at hphrase
  | succ bound ih =>
      obtain ⟨node, hnode, hassembled⟩ := exprWithin_succ_eq_ok_iff.mp hphrase
      exact hexpr bound id node phrase hnode
        (hgood.sibling_eq_none hnode hassembled.category_eq) hassembled ih

variable (hnil : ∀ bound, blockMotive bound [] .nil)
  (hcons : ∀ bound id node first rest, tree.get? id = some node →
    StmtAssembled (tree.exprWithin bound) (tree.blockWithin bound)
      (node.mark id) node.form
      first →
      (∀ part found,
        tree.exprWithin bound part = .ok found → exprMotive bound part found) →
      (∀ part found, tree.blockWithin bound part = .ok found →
        blockMotive bound [part] found) →
      blockMotive bound node.sibling.toList rest →
        blockMotive (bound + 1) [id] (.cons first rest))

include hnil hcons

/-- A fact of the program of a tree follows from one case for a node with an
expression and one for a node with a statement, between its parts and the rest
of its sequence. -/
theorem WellFormed.program_induction {program : Block Mark}
    (hprogram : tree.program = .ok program) :
    blockMotive (tree.size + 1) tree.root.toList program := by
  have hblocks : ∀ bound id phrase, tree.blockWithin bound id = .ok phrase →
      blockMotive bound [id] phrase := by
    intro bound
    induction bound with
    | zero =>
        intro id phrase hphrase
        simp [blockWithin] at hphrase
    | succ bound ih =>
        intro id phrase hphrase
        obtain ⟨node, first, rest, hnode, hfirst, hrest, rfl⟩ :=
          blockWithin_succ_eq_ok_iff.mp hphrase
        refine hcons bound id node first rest hnode hfirst
          (hgood.exprWithin_induction exprMotive hexpr bound) ih ?_
        rcases hrest with ⟨hsibling, rfl⟩ | ⟨next, hsibling, hnext⟩
        · rw [hsibling]
          exact hnil bound
        · rw [hsibling]
          exact ih next rest hnext
  unfold Tree.program at hprogram
  cases hroot : tree.root with
  | none =>
      rw [hroot] at hprogram
      obtain rfl := Except.ok.inj hprogram
      exact hnil _
  | some root =>
      rw [hroot] at hprogram
      exact hblocks _ root program hprogram

end Induction

end Tree
end TinyCompiler
