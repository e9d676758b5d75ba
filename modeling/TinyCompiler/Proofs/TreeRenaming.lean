import TinyCompiler.Proofs.PhraseNotes
import TinyCompiler.Proofs.TreeUnfolding

/-!
# Renaming in trees and phrases

Two trees are the same up to a renaming if their nodes have the same links, and
forms that differ in names only.  Lines and noted types are left out of account.
Operations succeed or fail on both alike and keep them the same, and the
programs that unfold from them are the same up to the renaming and the notes.
-/

namespace TinyCompiler

/-! ## Phrases -/

section Phrases

variable (rename : String → String)

def Form.mapName : Form → Form
  | .assign name value => .assign (rename name) value
  | .read name => .read (rename name)
  | .var name => .var (rename name)
  | form => form

@[simp] theorem Form.category_mapName (form : Form) :
    (form.mapName rename).category = form.category := by
  cases form <;> rfl

@[simp] theorem Form.parts_mapName (form : Form) :
    (form.mapName rename).parts = form.parts := by
  cases form <;> rfl

theorem Form.mapName_id (form : Form) : form.mapName id = form := by
  cases form <;> rfl

def Expr.mapName : Expr α → Expr α
  | .const note value => .const note value
  | .var note name => .var note (rename name)
  | .op note operator left right => .op note operator left.mapName right.mapName

mutual

def Stmt.mapName : Stmt α → Stmt α
  | .read note name => .read note (rename name)
  | .assign note name value => .assign note (rename name) (value.mapName rename)
  | .write note value => .write note (value.mapName rename)
  | .ifThen note test thenPart =>
      .ifThen note (test.mapName rename) thenPart.mapName
  | .ifElse note test thenPart elsePart =>
      .ifElse note (test.mapName rename) thenPart.mapName elsePart.mapName
  | .repeatUntil note body test =>
      .repeatUntil note body.mapName (test.mapName rename)

def Block.mapName : Block α → Block α
  | .nil => .nil
  | .cons first rest => .cons first.mapName rest.mapName

end

theorem Expr.mapName_id (expr : Expr α) : expr.mapName id = expr := by
  induction expr with
  | const note value => rfl
  | var note name => rfl
  | op note operator left right ihLeft ihRight =>
      simp [Expr.mapName, ihLeft, ihRight]

mutual

theorem Stmt.mapName_id : ∀ stmt : Stmt α, stmt.mapName id = stmt
  | .read note name => rfl
  | .assign note name value => by simp [Stmt.mapName, Expr.mapName_id]
  | .write note value => by simp [Stmt.mapName, Expr.mapName_id]
  | .ifThen note test thenPart => by
      simp [Stmt.mapName, Expr.mapName_id, Block.mapName_id thenPart]
  | .ifElse note test thenPart elsePart => by
      simp [Stmt.mapName, Expr.mapName_id, Block.mapName_id thenPart,
        Block.mapName_id elsePart]
  | .repeatUntil note body test => by
      simp [Stmt.mapName, Expr.mapName_id, Block.mapName_id body]

theorem Block.mapName_id : ∀ block : Block α, block.mapName id = block
  | .nil => rfl
  | .cons first rest =>
      by simp [Block.mapName, Stmt.mapName_id first, Block.mapName_id rest]

end

theorem Expr.names_mapName (expr : Expr α) :
    (expr.mapName rename).names = expr.names.map rename := by
  induction expr with
  | const note value => rfl
  | var note name => rfl
  | op note operator left right ihLeft ihRight =>
      simp [Expr.mapName, Expr.names, ihLeft, ihRight]

mutual

theorem Stmt.names_mapName :
    ∀ stmt : Stmt α, (stmt.mapName rename).names = stmt.names.map rename
  | .read note name => rfl
  | .assign note name value =>
      by simp [Stmt.mapName, Stmt.names, Expr.names_mapName]
  | .write note value => by simp [Stmt.mapName, Stmt.names, Expr.names_mapName]
  | .ifThen note test thenPart => by
      simp [Stmt.mapName, Stmt.names, Expr.names_mapName,
        Block.names_mapName thenPart]
  | .ifElse note test thenPart elsePart => by
      simp [Stmt.mapName, Stmt.names, Expr.names_mapName,
        Block.names_mapName thenPart, Block.names_mapName elsePart]
  | .repeatUntil note body test => by
      simp [Stmt.mapName, Stmt.names, Expr.names_mapName,
        Block.names_mapName body]

theorem Block.names_mapName :
    ∀ block : Block α, (block.mapName rename).names = block.names.map rename
  | .nil => rfl
  | .cons first rest => by
      simp [Block.mapName, Block.names, Stmt.names_mapName first,
        Block.names_mapName rest]

end

end Phrases

namespace Tree

/-! ## Trees -/

structure Renamed (rename : String → String) (tree other : Tree) : Prop where
  root : other.root = tree.root
  size : other.size = tree.size
  nodes : ∀ id node, tree.get? id = some node → ∃ same,
    other.get? id = some same ∧
    same.form = node.form.mapName rename ∧ same.sibling = node.sibling

/-- Two results of which both are errors or neither is, and then they are
related. -/
inductive Parallel {ε α β : Type} (related : α → β → Prop) :
    Except ε α → Except ε β → Prop where
  | ok {value : α} {other : β} : related value other →
      Parallel related (.ok value) (.ok other)
  | error (first second : ε) : Parallel related (.error first) (.error second)

theorem Parallel.of_ok {ε α β : Type} {related : α → β → Prop}
    {first : Except ε α} {second : Except ε β}
    (hfirst : ∀ value, first = .ok value → ∃ other,
      second = .ok other ∧ related value other)
    (hsecond : ∀ other, second = .ok other → ∃ value, first = .ok value) :
    Parallel related first second := by
  cases first with
  | ok value =>
      obtain ⟨other, rfl, hrelated⟩ := hfirst value rfl
      exact .ok hrelated
  | error fault =>
      cases second with
      | ok other =>
          obtain ⟨value, hvalue⟩ := hsecond other rfl
          contradiction
      | error otherFault => exact .error fault otherFault

section Renamed

variable {rename : String → String} {tree other : Tree}

theorem renamed_empty : Renamed rename Tree.empty Tree.empty where
  root := rfl
  size := rfl
  nodes := by simp [Tree.empty, get?]

theorem Renamed.node_of (hrenamed : Renamed rename tree other) {id : NodeId}
    {same : Node} (hsame : other.get? id = some same) :
    ∃ node, tree.get? id = some node ∧
      same.form = node.form.mapName rename ∧ same.sibling = node.sibling := by
  have hlt : id < tree.size := hrenamed.size ▸ get?_eq_some_lt hsame
  obtain ⟨node, hnode⟩ : ∃ node, tree.get? id = some node :=
    ⟨_, Array.getElem?_eq_getElem hlt⟩
  obtain ⟨again, hagain, hform, hsibling⟩ := hrenamed.nodes id node hnode
  obtain rfl := Option.some.inj (hsame.symm.trans hagain)
  exact ⟨node, hnode, hform, hsibling⟩

theorem Renamed.holds_iff (hrenamed : Renamed rename tree other)
    {category : Category} {id : NodeId} :
    other.Holds category id ↔ tree.Holds category id := by
  constructor
  · rintro ⟨same, hsame, hcategory⟩
    obtain ⟨node, hnode, hform, -⟩ := hrenamed.node_of hsame
    rw [hform, Form.category_mapName] at hcategory
    exact ⟨node, hnode, hcategory⟩
  · rintro ⟨node, hnode, hcategory⟩
    obtain ⟨same, hsame, hform, -⟩ := hrenamed.nodes id node hnode
    exact ⟨same, hsame, by rw [hform, Form.category_mapName, hcategory]⟩

theorem Renamed.chain_eq (hrenamed : Renamed rename tree other) (bound : Nat)
    (head : NodeId) :
    other.chain bound head = tree.chain bound head := by
  induction bound generalizing head with
  | zero => rfl
  | succ bound ih =>
      unfold chain node
      cases hnode : tree.get? head with
      | some node =>
          obtain ⟨same, hsame, -, hsibling⟩ := hrenamed.nodes head node hnode
          rw [hsame]
          simp only [except_bind_of_ok rfl, hsibling, ih]
      | none =>
          have hnone : other.get? head = none := by
            cases hsame : other.get? head with
            | none => rfl
            | some same =>
                obtain ⟨node, hsome, -⟩ := hrenamed.node_of hsame
                rw [hnode] at hsome
                contradiction
          rw [hnone]
          rfl

theorem Renamed.siblings_eq (hrenamed : Renamed rename tree other)
    (head : NodeId) :
    other.siblings head = tree.siblings head := by
  unfold siblings
  rw [hrenamed.size, hrenamed.chain_eq]

/-! ## Operations -/

theorem Renamed.push (hrenamed : Renamed rename tree other)
    (line otherLine : Nat) (form : Form) :
    Renamed rename (tree.push line form)
      (other.push otherLine (form.mapName rename)) where
  root := hrenamed.root
  size := by
    have hsize := hrenamed.size
    simp only [Tree.push, Tree.size, Array.size_push] at hsize ⊢
    rw [hsize]
  nodes := by
    intro id node hnode
    rw [get?_push] at hnode ⊢
    rw [hrenamed.size]
    by_cases hid : id = tree.size
    · rw [if_pos hid] at hnode ⊢
      obtain rfl := Option.some.inj hnode
      exact ⟨_, rfl, rfl, rfl⟩
    · rw [if_neg hid] at hnode ⊢
      exact hrenamed.nodes id node hnode

theorem Renamed.add (hrenamed : Renamed rename tree other)
    (line otherLine : Nat) (form : Form) :
    Parallel (fun added same =>
      same.1 = added.1 ∧ Renamed rename added.2 same.2)
      (tree.add line form) (other.add otherLine (form.mapName rename)) := by
  have hparts :
      (∀ part ∈ (form.mapName rename).parts, other.Holds part.1 part.2) ↔
      ∀ part ∈ form.parts, tree.Holds part.1 part.2 := by
    rw [Form.parts_mapName]
    exact forall₂_congr fun _ _ => hrenamed.holds_iff
  refine .of_ok ?_ ?_
  · rintro ⟨id, after⟩ hadd
    obtain ⟨hholds, rfl, rfl⟩ := add_eq_ok_iff.mp hadd
    exact ⟨_, add_eq_ok_iff.mpr ⟨hparts.mpr hholds, rfl, rfl⟩, hrenamed.size,
      hrenamed.push line otherLine form⟩
  · rintro ⟨id, after⟩ hadd
    obtain ⟨hholds, -, -⟩ := add_eq_ok_iff.mp hadd
    exact ⟨_, add_eq_ok_iff.mpr ⟨hparts.mp hholds, rfl, rfl⟩⟩

theorem Renamed.setRoot (hrenamed : Renamed rename tree other) (id : NodeId) :
    Parallel (Renamed rename) (tree.setRoot id) (other.setRoot id) := by
  refine .of_ok ?_ ?_
  · intro after hroot
    obtain ⟨hholds, rfl⟩ := setRoot_eq_ok_iff.mp hroot
    exact ⟨_, setRoot_eq_ok_iff.mpr ⟨hrenamed.holds_iff.mpr hholds, rfl⟩, rfl,
      hrenamed.size, hrenamed.nodes⟩
  · intro after hroot
    obtain ⟨hholds, -⟩ := setRoot_eq_ok_iff.mp hroot
    exact ⟨_, setRoot_eq_ok_iff.mpr ⟨hrenamed.holds_iff.mp hholds, rfl⟩⟩

theorem Renamed.setSibling (hrenamed : Renamed rename tree other)
    (previous next : NodeId) :
    Parallel (Renamed rename) (tree.setSibling previous next)
      (other.setSibling previous next) := by
  refine .of_ok ?_ ?_
  · intro after hlink
    obtain ⟨hprevious, hnext, hfree, rfl⟩ := setSibling_eq_ok_iff.mp hlink
    rw [← hrenamed.siblings_eq] at hfree
    refine ⟨_, setSibling_eq_ok_iff.mpr ⟨hrenamed.holds_iff.mpr hprevious,
      hrenamed.holds_iff.mpr hnext, hfree, rfl⟩, hrenamed.root, ?_, ?_⟩
    · have hsize := hrenamed.size
      simpa [update, Tree.size] using hsize
    · intro id changed hchanged
      rw [get?_update] at hchanged ⊢
      by_cases hid : previous = id
      · rw [if_pos hid] at hchanged ⊢
        obtain ⟨node, hnode, rfl⟩ := Option.map_eq_some_iff.mp hchanged
        obtain ⟨same, hsame, hform, -⟩ := hrenamed.nodes id node hnode
        rw [hsame]
        exact ⟨_, rfl, hform, rfl⟩
      · rw [if_neg hid] at hchanged ⊢
        exact hrenamed.nodes id changed hchanged
  · intro after hlink
    obtain ⟨hprevious, hnext, hfree, rfl⟩ := setSibling_eq_ok_iff.mp hlink
    rw [hrenamed.siblings_eq] at hfree
    exact ⟨_, setSibling_eq_ok_iff.mpr ⟨hrenamed.holds_iff.mp hprevious,
      hrenamed.holds_iff.mp hnext, hfree, rfl⟩⟩

end Renamed

/-! ## Unfolding -/

/-- The mark that a node has in this tree. -/
def remark (tree : Tree) (mark : Mark) : Mark :=
  match tree.get? mark.id with
  | some node => node.mark mark.id
  | none => mark

theorem remark_mark {tree : Tree} {id : NodeId} {node : Node}
    (hnode : tree.get? id = some node) (other : Node) :
    tree.remark (other.mark id) = node.mark id := by
  simp [remark, Node.mark, hnode]

section Unfolding

variable {rename : String → String} {tree other : Tree}
  {expr otherExpr : NodeId → Except Fault (Expr Mark)}
  {block otherBlock : NodeId → Except Fault (Block Mark)}
    {mark : Mark} {form : Form}

theorem ExprAssembled.renamed (rename : String → String) (other : Tree)
    {phrase : Expr Mark}
    (hphrase : ExprAssembled expr mark form phrase)
    (hexpr : ∀ part found, expr part = .ok found →
      otherExpr part = .ok ((found.mapNote other.remark).mapName rename)) :
    ExprAssembled otherExpr (other.remark mark) (form.mapName rename)
      ((phrase.mapNote other.remark).mapName rename) := by
  cases hphrase with
  | const value => exact .const value
  | var name => exact .var (rename name)
  | op hleft hright => exact .op (hexpr _ _ hleft) (hexpr _ _ hright)

theorem StmtAssembled.renamed (rename : String → String) (other : Tree)
    {phrase : Stmt Mark}
    (hphrase : StmtAssembled expr block mark form phrase)
    (hexpr : ∀ part found, expr part = .ok found →
      otherExpr part = .ok ((found.mapNote other.remark).mapName rename))
    (hblock : ∀ part found, block part = .ok found →
      otherBlock part = .ok ((found.mapNote other.remark).mapName rename)) :
    StmtAssembled otherExpr otherBlock (other.remark mark) (form.mapName rename)
      ((phrase.mapNote other.remark).mapName rename) := by
  cases hphrase with
  | read name => exact .read (rename name)
  | assign hvalue => exact .assign (hexpr _ _ hvalue)
  | write hvalue => exact .write (hexpr _ _ hvalue)
  | ifThen htest hthen => exact .ifThen (hexpr _ _ htest) (hblock _ _ hthen)
  | ifElse htest hthen helse =>
      exact .ifElse (hexpr _ _ htest) (hblock _ _ hthen) (hblock _ _ helse)
  | repeatUntil hbody htest =>
      exact .repeatUntil (hblock _ _ hbody) (hexpr _ _ htest)

theorem Renamed.exprWithin (hrenamed : Renamed rename tree other) {bound : Nat}
    {id : NodeId} {phrase : Expr Mark}
    (hphrase : tree.exprWithin bound id = .ok phrase) :
    other.exprWithin bound id =
      .ok ((phrase.mapNote other.remark).mapName rename) := by
  induction bound generalizing id phrase with
  | zero => simp [Tree.exprWithin] at hphrase
  | succ bound ih =>
      obtain ⟨node, hnode, hassembled⟩ := exprWithin_succ_eq_ok_iff.mp hphrase
      obtain ⟨same, hother, hform, -⟩ := hrenamed.nodes id node hnode
      have hresult :=
        hassembled.renamed rename other fun part found hfound => ih hfound
      rw [remark_mark hother node, ← hform] at hresult
      exact exprWithin_succ_eq_ok_iff.mpr ⟨same, hother, hresult⟩

theorem Renamed.blockWithin (hrenamed : Renamed rename tree other) {bound : Nat}
    {id : NodeId} {phrase : Block Mark}
    (hphrase : tree.blockWithin bound id = .ok phrase) :
    other.blockWithin bound id =
      .ok ((phrase.mapNote other.remark).mapName rename) := by
  induction bound generalizing id phrase with
  | zero => simp [Tree.blockWithin] at hphrase
  | succ bound ih =>
      obtain ⟨node, first, rest, hnode, hfirst, hrest, rfl⟩ :=
        blockWithin_succ_eq_ok_iff.mp hphrase
      obtain ⟨same, hother, hform, hsibling⟩ := hrenamed.nodes id node hnode
      have hresult := hfirst.renamed rename other
        (fun part found hfound => hrenamed.exprWithin hfound)
        (fun part found hfound => ih hfound)
      rw [remark_mark hother node, ← hform] at hresult
      refine blockWithin_succ_eq_ok_iff.mpr
        ⟨same, _, _, hother, hresult, ?_, rfl⟩
      rw [hsibling]
      rcases hrest with ⟨hnone, rfl⟩ | ⟨next, hnext, hrest⟩
      · exact .inl ⟨hnone, rfl⟩
      · exact .inr ⟨next, hnext, ih hrest⟩

/-- The program of a renamed tree is the renamed program with the marks of that
tree. -/
theorem Renamed.program (hrenamed : Renamed rename tree other)
    {phrase : Block Mark} (hphrase : tree.program = .ok phrase) :
    other.program = .ok ((phrase.mapNote other.remark).mapName rename) := by
  unfold Tree.program at hphrase ⊢
  rw [hrenamed.root]
  cases hroot : tree.root with
  | none =>
      rw [hroot] at hphrase
      injection hphrase with hphrase
      subst hphrase
      rfl
  | some root =>
      rw [hroot] at hphrase
      unfold Tree.block at hphrase ⊢
      rw [hrenamed.size]
      exact hrenamed.blockWithin hphrase

end Unfolding

end Tree
end TinyCompiler
