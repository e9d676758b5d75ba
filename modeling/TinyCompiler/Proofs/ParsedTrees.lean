import TinyCompiler.Proofs.ParserCorrectness

/-!
# Parsed trees

A parser changes its tree by the operations on trees only, whatever its tables
are and also when it stops with a diagnostic.  One lemma for each action shows
this of a goal under the assumption that it holds of the goals it is reached
through.  The links of a parsed tree are acyclic.
-/

namespace TinyCompiler.Parser

/-- The operations on trees have built the tree that is left. -/
def LeavesBuilt : EStateM.Result Stop Parser α → Prop
  | .ok _ parser => parser.tree.Built
  | .error _ parser => parser.tree.Built

/-- An action changes the tree by the operations on trees only. -/
def Builds (action : Action α) : Prop :=
  ∀ parser : Parser, parser.tree.Built → LeavesBuilt (action parser)

/-! ## Single actions -/

section Single

variable {α β : Type}

theorem builds_pure (value : α) : Builds (pure value : Action α) :=
  fun _ hbuilt => hbuilt

theorem builds_get : Builds (get : Action Parser) :=
  fun _ hbuilt => hbuilt

theorem builds_reject (diagnostic : Diagnostic) :
    Builds (reject diagnostic : Action α) :=
  fun _ hbuilt => hbuilt

theorem Builds.bind {first : Action α} {next : α → Action β}
    (hfirst : Builds first) (hnext : ∀ value, Builds (next value)) :
    Builds (first >>= next) := by
  intro parser hbuilt
  have hleft := hfirst parser hbuilt
  rw [bind_apply]
  cases hresult : first parser with
  | ok value after =>
      rw [hresult] at hleft
      exact hnext value after hleft
  | error stop after =>
      rw [hresult] at hleft
      exact hleft

theorem builds_ite {condition : Prop} [Decidable condition]
    {first second : Action α} (hfirst : Builds first)
    (hsecond : Builds second) :
    Builds (if condition then first else second) := by
  by_cases hcondition : condition
  · rwa [if_pos hcondition]
  · rwa [if_neg hcondition]

theorem builds_rejectCurrent (detail : String) :
    Builds (rejectCurrent detail : Action α) :=
  builds_get.bind fun _ => builds_reject _

theorem builds_advance : Builds advance := by
  intro parser hbuilt
  change parser.advanced.tree.Built
  unfold advanced
  cases parser.upcoming with
  | nil => exact hbuilt
  | cons next rest => exact hbuilt

theorem builds_expectOr (kind : Token.Kind) (diagnostic : Diagnostic) :
    Builds (expectOr kind diagnostic) :=
  builds_get.bind fun _ => builds_ite builds_advance (builds_reject _)

theorem builds_expect (kind : Token.Kind) : Builds (expect kind) :=
  builds_get.bind fun _ => builds_expectOr kind _

theorem builds_expectWith (kind : Token.Kind) (detail : String) :
    Builds (expectWith kind detail) :=
  builds_get.bind fun _ => builds_expectOr kind _

theorem builds_build (line : Nat) (form : Form) : Builds (build line form) := by
  intro parser hbuilt
  unfold build
  cases hadd : parser.tree.add line form with
  | error fault => exact hbuilt
  | ok added => exact hbuilt.add hadd

theorem builds_changeTree {change : Tree → Except Tree.Fault Tree}
    (hchange : ∀ {tree after : Tree},
      tree.Built → change tree = .ok after → after.Built) :
    Builds (changeTree change) := by
  intro parser hbuilt
  unfold changeTree
  cases hafter : change parser.tree with
  | error fault => exact hbuilt
  | ok after => exact hchange hbuilt hafter

end Single

/-! ## Goals -/

section Goals

variable {recur : Goal → Action NodeId}

theorem builds_primary : Builds primary := by
  refine builds_get.bind fun parser => ?_
  dsimp only
  split
  · split
    · exact builds_reject _
    · exact builds_advance.bind fun _ => builds_build _ _
  · exact builds_advance.bind fun _ => builds_build _ _
  · exact builds_rejectCurrent _

theorem builds_readStatement : Builds readStatement :=
  builds_advance.bind fun _ => (builds_expectWith _ _).bind fun _ =>
    builds_build _ _

section Recursive

variable (hrecur : ∀ goal, Builds (recur goal))
include hrecur

theorem builds_ifStatement : Builds (ifStatement recur) := by
  refine builds_advance.bind fun keyword => (hrecur _).bind fun test =>
    (builds_expect _).bind fun _ => (hrecur _).bind fun thenPart => ?_
  have hend : ∀ elsePart, Builds (do
      let _ ← expect .endWord
      build keyword.line (.ifElse test thenPart elsePart)) :=
    fun elsePart => (builds_expect _).bind fun _ => builds_build _ _
  refine builds_get.bind fun parser => builds_ite ?_ ?_
  · exact builds_advance.bind fun _ => (hrecur _).bind fun part =>
      (builds_pure _).bind fun elsePart => hend elsePart
  · exact (builds_pure _).bind fun elsePart => hend elsePart

theorem builds_follow (rule : Rule) : Builds (follow recur rule) := by
  cases rule with
  | ifStatement => exact builds_ifStatement hrecur
  | repeatStatement =>
      exact builds_advance.bind fun _ => (hrecur _).bind fun _ =>
        (builds_expect _).bind fun _ => (hrecur _).bind fun _ =>
          builds_build _ _
  | assignment =>
      exact (builds_expect _).bind fun _ => (builds_expectWith _ _).bind
        fun _ => (hrecur _).bind fun _ => builds_build _ _
  | readStatement => exact builds_readStatement
  | writeStatement =>
      exact builds_advance.bind fun _ => (hrecur _).bind fun _ =>
        builds_build _ _
  | statement =>
      refine builds_get.bind fun parser => ?_
      cases parser.tables.statement parser.kind with
      | none => exact builds_rejectCurrent _
      | some rule => exact hrecur _
  | sequence => exact (hrecur _).bind fun _ => hrecur _
  | primary => exact builds_primary
  | grouping =>
      exact builds_advance.bind fun _ => (hrecur _).bind fun _ =>
        (builds_expectWith _ _).bind fun _ => builds_pure _

theorem builds_attempt (goal : Goal) : Builds (attempt recur goal) := by
  cases goal with
  | rule rule => exact builds_follow hrecur rule
  | expression power =>
      refine builds_get.bind fun parser => ?_
      cases parser.tables.operand parser.kind with
      | none => exact builds_rejectCurrent _
      | some rule => exact (hrecur _).bind fun _ => hrecur _
  | extension left power =>
      refine builds_get.bind fun parser => ?_
      rcases parser.tables.joiner parser.kind with - | ⟨tighter, joiner⟩
      · exact builds_pure _
      · exact builds_ite ((hrecur _).bind fun _ => hrecur _) (builds_pure _)
  | join joiner left power =>
      cases joiner with
      | binary =>
          refine builds_advance.bind fun token => ?_
          cases Operator.ofKind? token.kind with
          | none => exact builds_get.bind fun _ => builds_reject _
          | some operator => exact (hrecur _).bind fun _ => builds_build _ _
      | comparison =>
          exact (hrecur _).bind fun _ => builds_get.bind fun _ =>
            builds_ite (builds_rejectCurrent _) (builds_pure _)
  | sequenceAfter head tail =>
      refine builds_get.bind fun parser => builds_ite (builds_pure _) ?_
      exact (builds_expect _).bind fun _ => (hrecur _).bind fun next =>
        (builds_changeTree fun hbuilt hafter => hbuilt.setSibling hafter).bind
          fun _ => hrecur _

end Recursive

theorem builds_reach (depth : Nat) (goal : Goal) :
    Builds (reach depth goal) := by
  induction depth generalizing goal with
  | zero => exact fun parser hbuilt => hbuilt
  | succ depth ih => exact builds_attempt ih goal

theorem builds_program : Builds program := by
  refine Builds.bind (builds_get.bind fun _ => builds_reach _ _) fun root => ?_
  exact builds_get.bind fun parser => builds_ite
    (builds_changeTree fun hbuilt hafter => hbuilt.setRoot hafter)
    (builds_rejectCurrent _)

end Goals

/-! ## Whole programs -/

section Whole

variable {tokens : List Token} {file : String} {tree : Tree}

/-- The tree of a parser that has run is built, also when the text is
rejected. -/
theorem run_built (tokens : List Token) (file : String) :
    (run tokens file).2.tree.Built := by
  have hleft := builds_program (start .standard tokens file) Tree.Built.empty
  unfold run
  cases hresult : program (start .standard tokens file) with
  | ok value parser =>
      rw [hresult] at hleft
      exact hleft
  | error stop parser =>
      rw [hresult] at hleft
      exact hleft

theorem parse_built (hparse : parse tokens file = .ok tree) : tree.Built := by
  obtain ⟨value, -, rfl⟩ := except_map_eq_ok.mp hparse
  exact run_built tokens file

theorem parse_acyclic (hparse : parse tokens file = .ok tree) :
    tree.Acyclic := by
  obtain ⟨sequence, -, -, rfl⟩ := derivation_of_parse hparse
  exact sequence.tree_acyclic (parse_built hparse).wellFormed

end Whole

end TinyCompiler.Parser
