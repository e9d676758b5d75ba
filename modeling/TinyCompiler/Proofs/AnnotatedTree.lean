import TinyCompiler.Analysis
import TinyCompiler.Proofs.TreeRenaming

/-!
# Trees with noted types

Noting types changes nothing else in a tree.  The program of the tree is the
same as before but for the types in its marks, and every expression of the
program has the type of its form noted.
-/

namespace TinyCompiler

/-- The type of the expressions of a form. -/
def Form.type : Form → ValueType
  | .op operator _ _ => operator.resultType
  | .const _ | .var _ => .integer
  | _ => .void

theorem Form.type_ne_void {form : Form}
    (hcategory : form.category = .expression) :
    form.type ≠ .void := by
  cases form with
  | op operator left right => cases operator <;> simp [Form.type] <;> decide
  | const value => simp [Form.type]
  | var name => simp [Form.type]
  | _ => simp [Form.category] at hcategory

namespace Tree

/-- The tree when the types of the forms are noted at some nodes. -/
def typed (tree : Tree) (ids : List NodeId) : Tree :=
  { tree with
    nodes := tree.nodes.mapIdx fun id node =>
      if id ∈ ids then { node with type := node.form.type } else node }

theorem get?_typed (tree : Tree) (ids : List NodeId) (id : NodeId) :
    (tree.typed ids).get? id = (tree.get? id).map fun node =>
      if id ∈ ids then { node with type := node.form.type } else node := by
  simp [typed, get?, Array.getElem?_mapIdx]

@[simp] theorem size_typed (tree : Tree) (ids : List NodeId) :
    (tree.typed ids).size = tree.size := by
  simp [typed, size]

theorem typed_nil (tree : Tree) : tree.typed [] = tree := by
  refine ext_get? ?_ rfl
  intro id
  rw [get?_typed]
  simp

theorem typed_typed (tree : Tree) (ids : List NodeId) :
    (tree.typed ids).typed ids =
    tree.typed ids := by
  refine ext_get? ?_ rfl
  intro id
  rw [get?_typed, get?_typed, Option.map_map]
  congr 1
  funext node
  by_cases hmem : id ∈ ids <;> simp [hmem]

/-- The trees are the same but for the types noted in them. -/
def SameShape (tree other : Tree) : Prop :=
  other.root = tree.root ∧ other.size = tree.size ∧
    ∀ id node, tree.get? id = some node → ∃ same, other.get? id = some same ∧
      same.form = node.form ∧ same.line = node.line ∧
        same.sibling = node.sibling

theorem sameShape_typed (tree : Tree) (ids : List NodeId) :
    tree.SameShape (tree.typed ids) := by
  refine ⟨rfl, size_typed tree ids, ?_⟩
  intro id node hnode
  rw [get?_typed, hnode]
  refine ⟨_, rfl, ?_⟩
  by_cases hmem : id ∈ ids <;> simp [hmem]

theorem setType_typed {tree : Tree} {id : NodeId} {node : Node}
    (hnode : tree.get? id = some node)
    (hcategory : node.form.category = .expression) (ids : List NodeId) :
    (tree.typed ids).setType id node.form.type = .ok
    (tree.typed (ids ++ [id])) := by
  obtain ⟨same, hsame, hform, -⟩ := (tree.sameShape_typed ids).2.2 id node hnode
  refine setType_eq_ok_iff.mpr ⟨⟨same, hsame, by rw [hform, hcategory]⟩, ?_⟩
  refine ext_get? ?_ rfl
  intro other
  rw [get?_update, get?_typed, get?_typed]
  by_cases hid : id = other
  · subst hid
    by_cases hmem : id ∈ ids <;> simp [hnode, hmem]
  · by_cases hmem : other ∈ ids <;> simp [hid, hmem, Ne.symm hid]

/-- Each entry is an expression of the tree with the type of its form. -/
def TypesOf (tree : Tree) (types : List (NodeId × ValueType)) : Prop :=
  ∀ entry ∈ types, ∃ node, tree.get? entry.1 = some node ∧
    node.form.category = .expression ∧ entry.2 = node.form.type

theorem TypesOf.append {tree : Tree} {first second : List (NodeId × ValueType)}
    (hfirst : tree.TypesOf first) (hsecond : tree.TypesOf second) :
    tree.TypesOf (first ++ second) := by
  intro entry hentry
  rcases List.mem_append.mp hentry with hentry | hentry
  · exact hfirst entry hentry
  · exact hsecond entry hentry

theorem noteTypes_typed {tree : Tree} {types : List (NodeId × ValueType)}
    (htypes : tree.TypesOf types) (ids : List NodeId) :
    (tree.typed ids).noteTypes types = .ok
    (tree.typed (ids ++ types.map Prod.fst)) := by
  induction types generalizing ids with
  | nil =>
      rw [List.map_nil, List.append_nil]
      rfl
  | cons entry rest ih =>
      obtain ⟨node, hnode, hcategory, htype⟩ := htypes entry List.mem_cons_self
      have hrest :=
        ih (fun other hother => htypes other (List.mem_cons_of_mem _ hother))
        (ids ++ [entry.1])
      rw [List.append_assoc] at hrest
      rw [noteTypes, List.foldlM_cons, htype,
        except_bind_of_ok (setType_typed hnode hcategory ids)]
      exact hrest

theorem noteTypes_eq_typed {tree : Tree} {types : List (NodeId × ValueType)}
    (htypes : tree.TypesOf types) :
    tree.noteTypes types = .ok (tree.typed (types.map Prod.fst)) := by
  have hnoted := noteTypes_typed htypes []
  rwa [typed_nil, List.nil_append] at hnoted

/-! ## The types of unfolded phrases -/

section Assembled

variable {tree : Tree} {expr : NodeId → Except Fault (Expr Mark)}
  {block : NodeId → Except Fault (Block Mark)} {id : NodeId} {node : Node}

theorem ExprAssembled.typesOf {phrase : Expr Mark}
    (hphrase : ExprAssembled expr (node.mark id) node.form phrase)
    (hnode : tree.get? id = some node)
    (hexpr : ∀ part found, expr part = .ok found → tree.TypesOf found.types) :
    tree.TypesOf phrase.types := by
  have hcategory := hphrase.category_eq
  have hself : tree.TypesOf [(id, node.form.type)] := by
    intro entry hentry
    obtain rfl := List.mem_singleton.mp hentry
    exact ⟨node, hnode, hcategory, rfl⟩
  generalize hform : node.form = form at hphrase hself
  cases hphrase with
  | const value => exact hself
  | var name => exact hself
  | op hleft hright =>
      exact ((hexpr _ _ hleft).append (hexpr _ _ hright)).append hself

theorem StmtAssembled.typesOf {mark : Mark} {form : Form} {phrase : Stmt Mark}
    (hphrase : StmtAssembled expr block mark form phrase)
    (hexpr : ∀ part found, expr part = .ok found → tree.TypesOf found.types)
    (hblock : ∀ part found, block part = .ok found → tree.TypesOf found.types) :
    tree.TypesOf phrase.types := by
  cases hphrase with
  | read name => simp [TypesOf, Stmt.types]
  | assign hvalue => exact hexpr _ _ hvalue
  | write hvalue => exact hexpr _ _ hvalue
  | ifThen htest hthen => exact (hexpr _ _ htest).append (hblock _ _ hthen)
  | ifElse htest hthen helse =>
      exact ((hexpr _ _ htest).append (hblock _ _ hthen)).append
        (hblock _ _ helse)
  | repeatUntil hbody htest => exact (hblock _ _ hbody).append (hexpr _ _ htest)

end Assembled

theorem exprWithin_typesOf {tree : Tree} {bound : Nat} {id : NodeId}
    {phrase : Expr Mark} (hphrase : tree.exprWithin bound id = .ok phrase) :
    tree.TypesOf phrase.types := by
  induction bound generalizing id phrase with
  | zero => simp [exprWithin] at hphrase
  | succ bound ih =>
      obtain ⟨node, hnode, hassembled⟩ := exprWithin_succ_eq_ok_iff.mp hphrase
      exact hassembled.typesOf hnode fun part found hfound => ih hfound

theorem blockWithin_typesOf {tree : Tree} {bound : Nat} {id : NodeId}
    {phrase : Block Mark} (hphrase : tree.blockWithin bound id = .ok phrase) :
    tree.TypesOf phrase.types := by
  induction bound generalizing id phrase with
  | zero => simp [blockWithin] at hphrase
  | succ bound ih =>
      obtain ⟨node, first, rest, hnode, hfirst, hrest, rfl⟩ :=
        blockWithin_succ_eq_ok_iff.mp hphrase
      have hfirstTypes : tree.TypesOf first.types :=
        hfirst.typesOf (fun _ _ => exprWithin_typesOf)
          (fun _ _ hfound => ih hfound)
      apply hfirstTypes.append
      rcases hrest with ⟨-, rfl⟩ | ⟨next, -, hrest⟩
      · simp [TypesOf, Block.types]
      · exact ih hrest

theorem program_typesOf {tree : Tree} {phrase : Block Mark}
    (hphrase : tree.program = .ok phrase) : tree.TypesOf phrase.types := by
  unfold program at hphrase
  cases hroot : tree.root with
  | none =>
      rw [hroot] at hphrase
      injection hphrase with hphrase
      simp [← hphrase, TypesOf, Block.types]
  | some root =>
      rw [hroot] at hphrase
      exact blockWithin_typesOf hphrase

/-! ## Unfolding the annotated tree -/

section SameShape

variable {tree other : Tree}

theorem SameShape.refl (tree : Tree) : tree.SameShape tree :=
  ⟨rfl, rfl, fun _ node hnode => ⟨node, hnode, rfl, rfl, rfl⟩⟩

theorem SameShape.typed (hsame : tree.SameShape other) (ids : List NodeId) :
    tree.SameShape (other.typed ids) := by
  obtain ⟨hroot, hsize, hnodes⟩ := hsame
  obtain ⟨htypedRoot, htypedSize, htypedNodes⟩ := other.sameShape_typed ids
  refine ⟨htypedRoot.trans hroot, htypedSize.trans hsize, ?_⟩
  intro id node hnode
  obtain ⟨same, hsame, hform, hline, hsibling⟩ := hnodes id node hnode
  obtain ⟨noted, hnoted, hnotedForm, hnotedLine, hnotedSibling⟩ :=
    htypedNodes id same hsame
  exact ⟨noted, hnoted, hnotedForm.trans hform, hnotedLine.trans hline,
    hnotedSibling.trans hsibling⟩

theorem SameShape.wellFormed (hsame : tree.SameShape other)
    (hgood : tree.WellFormed) :
    other.WellFormed := by
  obtain ⟨hroot, hsize, hnodes⟩ := hsame
  have hback : ∀ id same, other.get? id = some same → ∃ node,
      tree.get? id = some node ∧
      same.form = node.form ∧ same.sibling = node.sibling := by
    intro id same hsame
    obtain ⟨node, hnode⟩ : ∃ node, tree.get? id = some node := by
      have hlt := get?_eq_some_lt hsame
      rw [hsize] at hlt
      exact ⟨tree.nodes[id], Array.getElem?_eq_getElem hlt⟩
    obtain ⟨found, hfound, hform, -, hsibling⟩ := hnodes id node hnode
    obtain rfl := Option.some.inj (hsame.symm.trans hfound)
    exact ⟨node, hnode, hform, hsibling⟩
  have hholds : ∀ category id,
      tree.Holds category id → other.Holds category id := by
    rintro category id ⟨node, hnode, hcategory⟩
    obtain ⟨same, hsame, hform, -⟩ := hnodes id node hnode
    exact ⟨same, hsame, by rw [hform, hcategory]⟩
  refine ⟨?_, ?_, ?_⟩
  · intro id same hsame part hpart
    obtain ⟨node, hnode, hform, -⟩ := hback id same hsame
    rw [hform] at hpart
    obtain ⟨hlt, hpartHolds⟩ := hgood.parts id node hnode part hpart
    exact ⟨hlt, hholds _ _ hpartHolds⟩
  · intro id same next hsame hnext
    obtain ⟨node, hnode, hform, hsibling⟩ := hback id same hsame
    rw [hsibling] at hnext
    obtain ⟨hcategory, hnextHolds⟩ := hgood.siblings id node next hnode hnext
    exact ⟨by rw [hform, hcategory], hholds _ _ hnextHolds⟩
  · intro id hid
    exact hholds _ _ (hgood.root id (hroot ▸ hid))

end SameShape

theorem SameShape.renamed {tree other : Tree} (hsame : tree.SameShape other) :
    Renamed id tree other where
  root := hsame.1
  size := hsame.2.1
  nodes := by
    intro id node hnode
    obtain ⟨same, hother, hform, -, hsibling⟩ := hsame.2.2 id node hnode
    exact ⟨same, hother, by rw [hform, Form.mapName_id], hsibling⟩

theorem SameShape.program {tree other : Tree} (hsame : tree.SameShape other)
    {phrase : Block Mark} (hphrase : tree.program = .ok phrase) :
    other.program = .ok (phrase.mapNote other.remark) := by
  rw [hsame.renamed.program hphrase, Block.mapName_id]

end Tree

/-! ## The marks after the analysis -/

theorem Expr.map_fst_types (expr : Expr Mark) :
    expr.types.map Prod.fst = expr.notes.map Mark.id := by
  induction expr with
  | const note value => rfl
  | var note name => rfl
  | op note operator left right ihLeft ihRight =>
      simp [Expr.types, Expr.notes, ihLeft, ihRight]

mutual

theorem Stmt.map_fst_types :
    ∀ stmt : Stmt Mark, stmt.types.map Prod.fst = stmt.exprNotes.map Mark.id
  | .read note name => rfl
  | .assign note name value => value.map_fst_types
  | .write note value => value.map_fst_types
  | .ifThen note test thenPart => by
      simp [Stmt.types, Stmt.exprNotes, test.map_fst_types,
        Block.map_fst_types thenPart]
  | .ifElse note test thenPart elsePart => by
      simp [Stmt.types, Stmt.exprNotes, test.map_fst_types,
        Block.map_fst_types thenPart, Block.map_fst_types elsePart]
  | .repeatUntil note body test => by
      simp [Stmt.types, Stmt.exprNotes, test.map_fst_types,
        Block.map_fst_types body]

theorem Block.map_fst_types :
    ∀ block : Block Mark, block.types.map Prod.fst = block.exprNotes.map Mark.id
  | .nil => rfl
  | .cons first rest => by
      simp [Block.types, Block.exprNotes, Stmt.map_fst_types first,
        Block.map_fst_types rest]

end

/-- In the tree with the types of a program noted, every expression of the
program has a type. -/
theorem Tree.remark_type_ne_void {tree : Tree} {program : Block Mark}
    (hprogram : tree.program = .ok program) {mark : Mark}
    (hmark : mark ∈ program.exprNotes) :
    ((tree.typed (program.types.map Prod.fst)).remark mark).type ≠ .void := by
  have hmem : mark.id ∈ program.types.map Prod.fst := by
    rw [program.map_fst_types]
    exact List.mem_map_of_mem hmark
  obtain ⟨entry, hentry, hid⟩ := List.mem_map.mp hmem
  obtain ⟨node, hnode, hcategory, -⟩ := program_typesOf hprogram entry hentry
  rw [hid] at hnode
  have hget : (tree.typed (program.types.map Prod.fst)).get? mark.id =
      some { node with type := node.form.type } := by
    rw [get?_typed, hnode, Option.map_some, if_pos hmem]
  unfold remark
  rw [hget]
  exact Form.type_ne_void hcategory

end TinyCompiler
