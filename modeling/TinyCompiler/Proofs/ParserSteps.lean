import TinyCompiler.Parser.Rules
import TinyCompiler.Proofs.GrammarUniqueness
import TinyCompiler.Proofs.TreeLayout

/-!
# Steps of the parser

What the parser of the language does at single tokens.  It stands before a list
of tokens with a tree, moves on as long as tokens follow, and appends nodes.  A
goal costs less depth than a token provides, so that there is depth enough
behind a token for every goal that is reached there.
-/

namespace TinyCompiler.Parser

open Grammar

/-- The parser of the language before tokens. -/
def before (file : String) (tree : Tree) (tokens : List Token) : Parser where
  current := tokens.headD (Token.endOfInput 1)
  upcoming := tokens.tail
  file := file
  tables := .standard
  tree := tree

/-- The depth is enough for a goal of some weight before tokens. -/
def Enough (depth weight : Nat) (tokens : List Token) : Prop :=
  32 * tokens.length + weight ≤ depth + 32

section Steps

variable {file : String} {tree : Tree} {token : Token}
  {tokens rest : List Token} {kind : Token.Kind} {depth weight less : Nat}

theorem Enough.behind (lost : Nat)
    (henough : Enough (depth + lost) weight tokens)
    (hrest : rest.length < tokens.length)
    (hweight : less + lost ≤ weight + 32) :
    Enough depth less rest := by
  unfold Enough at *
  omega

theorem Enough.here (lost : Nat) (henough : Enough (depth + lost) weight tokens)
    (hweight : less + lost ≤ weight) : Enough depth less tokens := by
  unfold Enough at *
  omega

theorem Enough.exists_succ (lost : Nat) (henough : Enough depth weight tokens)
    (htokens : tokens ≠ []) (hweight : lost ≤ weight) :
    ∃ less, depth = less + lost := by
  have hlength := List.length_pos_iff.mpr htokens
  unfold Enough at henough
  exact ⟨depth - lost, by omega⟩

theorem kind_before :
    (before file tree (token :: rest)).kind = token.kind := rfl

theorem advance_before (hrest : rest ≠ []) :
    advance (before file tree (token :: rest)) =
      .ok token (before file tree rest) := by
  obtain ⟨next, behind, rfl⟩ := List.exists_cons_of_ne_nil hrest
  rfl

theorem expectOr_before {diagnostic : Diagnostic}
    (hkind : token.kind = kind) (hrest : rest ≠ []) :
    expectOr kind diagnostic (before file tree (token :: rest)) =
      .ok token (before file tree rest) := by
  unfold expectOr
  rw [bind_apply_of_ok (get_apply _), kind_before, if_pos hkind,
    advance_before hrest]

theorem expect_before (terminal : Terminal [kind]) (hrest : rest ≠ []) :
    expect kind (before file tree (terminal.token :: rest)) =
      .ok terminal.token (before file tree rest) :=
  expectOr_before (List.mem_singleton.mp terminal.kind_mem) hrest

theorem expectWith_before (terminal : Terminal [kind]) (detail : String)
    (hrest : rest ≠ []) :
    expectWith kind detail (before file tree (terminal.token :: rest)) =
      .ok terminal.token (before file tree rest) :=
  expectOr_before (List.mem_singleton.mp terminal.kind_mem) hrest

theorem build_before {line : Nat} {form : Form}
    (hparts : ∀ part ∈ form.parts, tree.Holds part.1 part.2) :
    build line form (before file tree tokens) =
      .ok tree.size
        (before file (tree.extend [Node.fresh line form]) tokens) := by
  have hadd : tree.add line form =
      .ok (tree.size, tree.extend [Node.fresh line form]) :=
    Tree.add_eq_ok_iff.mpr
      ⟨hparts, rfl, (Tree.push_eq_extend tree line form).symm⟩
  unfold build
  simp only [before, hadd]

theorem changeTree_before {change : Tree → Except Tree.Fault Tree}
    {after : Tree} (hchange : change tree = .ok after) :
    changeTree change (before file tree tokens) =
      .ok () (before file after tokens) := by
  unfold changeTree
  simp only [before, hchange]

theorem reach_succ (depth : Nat) (goal : Goal) :
    reach (depth + 1) goal = attempt (reach depth) goal := rfl

end Steps

/-! ## Looking at the current token -/

section Current

variable {recur : Goal → Action NodeId} {file : String} {tree : Tree}
  {token : Token} {rest : List Token}

theorem expression_before (power : BindingPower) :
    expression recur power (before file tree (token :: rest)) =
      (match Tables.standardOperand token.kind with
        | none => rejectCurrent "expected an expression"
        | some rule => do
            let left ← recur (.rule rule)
            recur (.extension left power) : Action NodeId)
              (before file tree (token :: rest)) :=
  rfl

theorem extension_before (left : NodeId) (power : BindingPower) :
    extension recur left power (before file tree (token :: rest)) =
      (match Tables.standardJoiner token.kind with
        | none => pure left
        | some (other, joiner) =>
            if power.rank < other.rank then do
              let joined ← recur (.join joiner left other)
              recur (.extension joined power)
            else pure left : Action NodeId)
              (before file tree (token :: rest)) :=
  rfl

theorem statement_before :
    statement recur (before file tree (token :: rest)) =
      (match Tables.standardStatement token.kind with
        | some rule => recur (.rule rule)
        | none => rejectCurrent "expected a statement" : Action NodeId)
          (before file tree (token :: rest)) :=
  rfl

theorem sequenceAfter_before (head tail : NodeId) :
    sequenceAfter recur head tail (before file tree (token :: rest)) =
      (if token.kind.endsSequence then pure head
        else do
          let _ ← expect .semicolon
          let next ← recur (.rule .statement)
          changeTree fun tree => tree.setSibling tail next
          recur (.sequenceAfter head next) : Action NodeId)
            (before file tree (token :: rest)) :=
  rfl

theorem primary_before :
    primary (before file tree (token :: rest)) =
      (match token.kind with
        | .number =>
            match Text.readInt32 token.text.toList with
            | .error _ => reject
                ((before file tree (token :: rest)).diagnostic
                  (.numberOutOfRange token.text))
            | .ok value => do
                let _ ← advance
                build token.line (.const value)
        | .identifier => do
            let _ ← advance
            build token.line (.var token.text)
        | _ => rejectCurrent "expected a number or identifier" : Action NodeId)
          (before file tree (token :: rest)) :=
  rfl

theorem power_before :
    (before file tree (token :: rest)).power =
      ((Tables.standardJoiner token.kind).map Prod.fst).getD .default := by
  have hjoiner : (before file tree (token :: rest)).tables.joiner
      (before file tree (token :: rest)).kind =
        Tables.standardJoiner token.kind := rfl
  unfold power
  rw [hjoiner]
  cases Tables.standardJoiner token.kind with
  | none => rfl
  | some entry => rfl

end Current

/-! ## Binding power -/

/-- The operators that bind tighter than a power. -/
def tighter : BindingPower → List Token.Kind
  | .default => operators
  | .relational => sums ++ products
  | .additive => products
  | .multiplicative => []

theorem joiner_of_not_tighter {power : BindingPower} {kind : Token.Kind}
    (hkind : kind ∉ tighter power) :
    Tables.standardJoiner kind = none ∨ ∃ other joiner,
      Tables.standardJoiner kind = some (other, joiner) ∧
        ¬ power.rank < other.rank := by
  cases hjoiner : Tables.standardJoiner kind with
  | none => exact .inl rfl
  | some entry =>
      refine .inr ⟨entry.1, entry.2, rfl, ?_⟩
      revert hkind hjoiner
      cases power <;> cases kind <;>
        simp [tighter, operators, relations, sums, products,
        Tables.standardJoiner, BindingPower.rank] <;> rintro rfl <;> decide

theorem joiner_of_mem_products {kind : Token.Kind} (hkind : kind ∈ products) :
    Tables.standardJoiner kind = some (.multiplicative, .binary) := by
  revert hkind
  cases kind <;> decide

theorem joiner_of_mem_sums {kind : Token.Kind} (hkind : kind ∈ sums) :
    Tables.standardJoiner kind = some (.additive, .binary) := by
  revert hkind
  cases kind <;> decide

theorem joiner_of_mem_relations {kind : Token.Kind} (hkind : kind ∈ relations) :
    Tables.standardJoiner kind = some (.relational, .comparison) := by
  revert hkind
  cases kind <;> decide

end TinyCompiler.Parser
