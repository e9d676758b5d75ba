import Mathlib.Data.List.Forall2
import TinyCompiler.Parser.Rules
import TinyCompiler.Proofs.TreeRenaming

/-!
# Parsing renamed tokens

Nothing but the kinds of the tokens and the texts of the numbers decides which
way a parser goes.  Two parsers whose tokens are the same up to a renaming of
the identifiers take the same steps, whatever the lines and the other texts are:
they stop alike, or they come to the same node in trees that are the same up to
the renaming.  This holds of a goal, for any tables, if it holds of the goals it
is reached through.
-/

namespace TinyCompiler

/-- The problem without the text at fault. -/
def Problem.withoutText : Problem → Problem
  | .unrecognisedToken _ => .unrecognisedToken ""
  | .unexpectedToken _ => .unexpectedToken ""
  | .unexpectedTokenDetailed _ detail => .unexpectedTokenDetailed "" detail
  | .numberOutOfRange _ => .numberOutOfRange ""
  | .unterminatedComment => .unterminatedComment
  | .typing error => .typing error

/-- Two tokens of one kind, the same number if they are numbers and
corresponding names if they are identifiers. -/
structure Token.Renamed (rename : String → String)
    (token other : Token) : Prop where
  kind : other.kind = token.kind
  number : token.kind = .number → other.text = token.text
  name : token.kind = .identifier → other.text = rename token.text

instance (rename : String → String) (token other : Token) :
    Decidable (Token.Renamed rename token other) :=
  decidable_of_iff (other.kind = token.kind ∧
      (token.kind = .number → other.text = token.text) ∧
      (token.kind = .identifier → other.text = rename token.text))
    ⟨fun hall => ⟨hall.1, hall.2.1, hall.2.2⟩,
      fun hrenamed => ⟨hrenamed.kind, hrenamed.number, hrenamed.name⟩⟩

theorem Token.renamed_endOfInput (rename : String → String)
    (line otherLine : Nat) :
    Token.Renamed rename (Token.endOfInput line)
      (Token.endOfInput otherLine) where
  kind := rfl
  number := by rintro ⟨⟩
  name := by rintro ⟨⟩

namespace Parser

structure Renamed (rename : String → String)
    (parser other : Parser) : Prop where
  current : Token.Renamed rename parser.current other.current
  upcoming : List.Forall₂ (Token.Renamed rename) parser.upcoming other.upcoming
  tables : other.tables = parser.tables
  tree : Tree.Renamed rename parser.tree other.tree

/-- Two stops for the same reason.  Misuse of a rule is one reason. -/
inductive StopsAlike : Stop → Stop → Prop where
  | rejected {diagnostic other : Diagnostic} :
      other.problem.withoutText = diagnostic.problem.withoutText →
        StopsAlike (.rejected diagnostic) (.rejected other)
  | misused (fault other : Tree.Fault) : StopsAlike (.misused fault)
      (.misused other)

inductive EndsAlike {α β : Type} (rename : String → String)
    (related : α → β → Prop) :
    EStateM.Result Stop Parser α → EStateM.Result Stop Parser β → Prop where
  | ok {value : α} {other : β} {after otherAfter : Parser} :
      related value other → Renamed rename after otherAfter →
        EndsAlike rename related (.ok value after) (.ok other otherAfter)
  | error {stop otherStop : Stop} {after otherAfter : Parser} :
      StopsAlike stop otherStop →
        EndsAlike rename related (.error stop after)
          (.error otherStop otherAfter)

/-- From parsers that are the same up to the renaming both actions end alike. -/
def Alike {α β : Type} (rename : String → String) (related : α → β → Prop)
    (action : Action α) (other : Action β) : Prop :=
  ∀ parser otherParser, Renamed rename parser otherParser →
    EndsAlike rename related (action parser) (other otherParser)

theorem Renamed.kind_eq {rename : String → String} {parser other : Parser}
    (hrenamed : Renamed rename parser other) : other.kind = parser.kind :=
  hrenamed.current.kind

theorem Renamed.power_eq {rename : String → String} {parser other : Parser}
    (hrenamed : Renamed rename parser other) : other.power = parser.power := by
  unfold power
  rw [hrenamed.tables, hrenamed.kind_eq]

theorem Renamed.depth_eq {rename : String → String} {parser other : Parser}
    (hrenamed : Renamed rename parser other) : other.depth = parser.depth := by
  unfold depth
  rw [hrenamed.upcoming.length_eq]

/-! ## Single actions -/

section Single

variable {α β γ δ : Type} {rename : String → String} {related : α → β → Prop}
  {nextRelated : γ → δ → Prop}

theorem alike_pure {value : α} {other : β} (hrelated : related value other) :
    Alike rename related (pure value) (pure other) :=
  fun _ _ hrenamed => .ok hrelated hrenamed

theorem alike_get : Alike rename (Renamed rename) get get :=
  fun _ _ hrenamed => .ok hrenamed hrenamed

theorem Alike.bind {first : Action α} {other : Action β} {next : α → Action γ}
    {otherNext : β → Action δ} (hfirst : Alike rename related first other)
    (hnext : ∀ value otherValue, related value otherValue →
      Alike rename nextRelated (next value) (otherNext otherValue)) :
    Alike rename nextRelated (first >>= next) (other >>= otherNext) := by
  intro parser otherParser hrenamed
  have hends := hfirst parser otherParser hrenamed
  rw [bind_apply, bind_apply]
  generalize first parser = result at hends ⊢
  generalize other otherParser = otherResult at hends ⊢
  cases hends with
  | ok hvalue hafter => exact hnext _ _ hvalue _ _ hafter
  | error hstop => exact .error hstop

theorem Alike.bind_eq {first other : Action α} {next : α → Action γ}
    {otherNext : α → Action δ} (hfirst : Alike rename Eq first other)
    (hnext : ∀ value, Alike rename nextRelated (next value) (otherNext value)) :
    Alike rename nextRelated (first >>= next) (other >>= otherNext) := by
  apply hfirst.bind
  rintro value _ rfl
  exact hnext value

theorem alike_ite {condition : Prop} [Decidable condition]
    {first second : Action α} {other otherSecond : Action β}
    (hfirst : Alike rename related first other)
    (hsecond : Alike rename related second otherSecond) :
    Alike rename related (if condition then first else second)
      (if condition then other else otherSecond) := by
  by_cases hcondition : condition
  · rwa [if_pos hcondition, if_pos hcondition]
  · rwa [if_neg hcondition, if_neg hcondition]

theorem alike_reject {diagnostic other : Diagnostic}
    (hsame : other.problem.withoutText = diagnostic.problem.withoutText) :
    Alike rename related (reject diagnostic) (reject other) :=
  fun _ _ _ => .error (.rejected hsame)

theorem alike_rejectCurrent (detail : String) :
    Alike rename related (rejectCurrent detail) (rejectCurrent detail) :=
  alike_get.bind fun _ _ _ => alike_reject rfl

theorem Renamed.advanced {parser other : Parser}
    (hrenamed : Renamed rename parser other) :
    Renamed rename parser.advanced other.advanced := by
  obtain ⟨current, upcoming, file, tables, tree⟩ := parser
  obtain ⟨otherCurrent, otherUpcoming, otherFile, otherTables, otherTree⟩ :=
    other
  obtain ⟨hcurrent, hupcoming, htables, htree⟩ := hrenamed
  cases hupcoming with
  | nil => exact ⟨hcurrent, .nil, htables, htree⟩
  | cons hnext hrest => exact ⟨hnext, hrest, htables, htree⟩

/-- Both move on over tokens that correspond, of the kind they have stood at. -/
theorem Renamed.advance {parser other : Parser}
    (hrenamed : Renamed rename parser other) :
    EndsAlike rename
      (fun token otherToken =>
        token.kind = parser.kind ∧ Token.Renamed rename token otherToken)
      (advance parser) (advance other) :=
  .ok ⟨rfl, hrenamed.current⟩ hrenamed.advanced

theorem alike_advance :
    Alike rename (Token.Renamed rename) advance advance := by
  intro parser otherParser hrenamed
  cases hrenamed.advance with
  | ok htoken hafter => exact .ok htoken.2 hafter

theorem alike_expectOr (kind : Token.Kind) {diagnostic other : Diagnostic}
    (hsame : other.problem.withoutText = diagnostic.problem.withoutText) :
    Alike rename (fun token otherToken =>
      token.kind = kind ∧ Token.Renamed rename token otherToken)
      (expectOr kind diagnostic) (expectOr kind other) := by
  intro parser otherParser hrenamed
  unfold expectOr
  rw [bind_apply_of_ok (get_apply _), bind_apply_of_ok (get_apply _),
    hrenamed.kind_eq]
  by_cases hkind : parser.kind = kind
  · rw [if_pos hkind, if_pos hkind, ← hkind]
    exact hrenamed.advance
  · rw [if_neg hkind, if_neg hkind]
    exact .error (.rejected hsame)

theorem alike_expect (kind : Token.Kind) :
    Alike rename (fun token otherToken =>
      token.kind = kind ∧ Token.Renamed rename token otherToken)
      (expect kind) (expect kind) :=
  alike_get.bind fun _ _ _ => alike_expectOr kind rfl

theorem alike_expectWith (kind : Token.Kind) (detail : String) :
    Alike rename (fun token otherToken =>
      token.kind = kind ∧ Token.Renamed rename token otherToken)
      (expectWith kind detail) (expectWith kind detail) :=
  alike_get.bind fun _ _ _ => alike_expectOr kind rfl

theorem alike_build (line otherLine : Nat) (form : Form) :
    Alike rename Eq (build line form)
      (build otherLine (form.mapName rename)) := by
  intro parser otherParser hrenamed
  have hadd := hrenamed.tree.add line otherLine form
  unfold build
  generalize parser.tree.add line form = added at hadd ⊢
  generalize otherParser.tree.add otherLine (form.mapName rename) =
    otherAdded at hadd ⊢
  cases hadd with
  | ok hadded =>
      exact .ok hadded.1.symm
        ⟨hrenamed.current, hrenamed.upcoming, hrenamed.tables, hadded.2⟩
  | error fault otherFault => exact .error (.misused fault otherFault)

theorem alike_changeTree {change : Tree → Except Tree.Fault Tree}
    (hchange : ∀ tree other, Tree.Renamed rename tree other →
      Tree.Parallel (Tree.Renamed rename) (change tree) (change other)) :
    Alike rename Eq (changeTree change) (changeTree change) := by
  intro parser otherParser hrenamed
  have hchanged := hchange _ _ hrenamed.tree
  unfold changeTree
  generalize change parser.tree = changed at hchanged ⊢
  generalize change otherParser.tree = otherChanged at hchanged ⊢
  cases hchanged with
  | ok hafter =>
      exact .ok rfl
        ⟨hrenamed.current, hrenamed.upcoming, hrenamed.tables, hafter⟩
  | error fault otherFault => exact .error (.misused fault otherFault)

end Single

/-! ## Goals -/

section Goals

variable {rename : String → String} {recur : Goal → Action NodeId}

theorem alike_primary : Alike rename Eq primary primary := by
  refine alike_get.bind fun parser other hrenamed => ?_
  dsimp only
  rw [hrenamed.current.kind]
  cases hkind : parser.current.kind with
  | number =>
      rw [hrenamed.current.number hkind]
      cases Text.readInt32 parser.current.text.toList with
      | error _ => exact alike_reject rfl
      | ok value =>
          exact alike_advance.bind fun _ _ _ => alike_build _ _ (.const value)
  | identifier =>
      rw [hrenamed.current.name hkind]
      exact alike_advance.bind fun _ _ _ =>
        alike_build _ _ (.var parser.current.text)
  | _ => exact alike_rejectCurrent _

theorem alike_readStatement : Alike rename Eq readStatement readStatement := by
  refine alike_advance.bind fun keyword other _ => ?_
  refine (alike_expectWith _ _).bind fun target otherTarget htarget => ?_
  rw [htarget.2.name htarget.1]
  exact alike_build _ _ (.read target.text)

section Recursive

variable (hrecur : ∀ goal, Alike rename Eq (recur goal) (recur goal))
include hrecur

theorem alike_ifStatement :
    Alike rename Eq (ifStatement recur) (ifStatement recur) := by
  refine alike_advance.bind fun keyword other _ =>
    (hrecur _).bind_eq fun test =>
    (alike_expect _).bind fun _ _ _ => (hrecur _).bind_eq fun thenPart => ?_
  have hend : ∀ elsePart,
      Alike rename Eq (do
        let _ ← expect .endWord
        build keyword.line (.ifElse test thenPart elsePart)) (do
        let _ ← expect .endWord
        build other.line (.ifElse test thenPart elsePart)) :=
    fun elsePart => (alike_expect _).bind fun _ _ _ =>
      alike_build _ _ (.ifElse test thenPart elsePart)
  refine alike_get.bind fun parser otherParser hrenamed => ?_
  rw [hrenamed.kind_eq]
  apply alike_ite
  · exact alike_advance.bind fun _ _ _ => (hrecur _).bind_eq fun part =>
      (alike_pure rfl).bind_eq fun elsePart => hend elsePart
  · exact (alike_pure rfl).bind_eq fun elsePart => hend elsePart

theorem alike_follow (rule : Rule) :
    Alike rename Eq (follow recur rule) (follow recur rule) := by
  cases rule with
  | ifStatement => exact alike_ifStatement hrecur
  | repeatStatement =>
      exact alike_advance.bind fun _ _ _ => (hrecur _).bind_eq fun body =>
        (alike_expect _).bind fun _ _ _ => (hrecur _).bind_eq fun test =>
          alike_build _ _ (.repeatUntil body test)
  | assignment =>
      refine (alike_expect _).bind fun target otherTarget htarget => ?_
      rw [htarget.2.name htarget.1]
      exact (alike_expectWith _ _).bind fun _ _ _ => (hrecur _).bind_eq
        fun value => alike_build _ _ (.assign target.text value)
  | readStatement => exact alike_readStatement
  | writeStatement =>
      exact alike_advance.bind fun _ _ _ => (hrecur _).bind_eq fun value =>
        alike_build _ _ (.write value)
  | statement =>
      refine alike_get.bind fun parser other hrenamed => ?_
      rw [hrenamed.tables, hrenamed.kind_eq]
      cases parser.tables.statement parser.kind with
      | none => exact alike_rejectCurrent _
      | some rule => exact hrecur _
  | sequence => exact (hrecur _).bind_eq fun _ => hrecur _
  | primary => exact alike_primary
  | grouping =>
      exact alike_advance.bind fun _ _ _ => (hrecur _).bind_eq fun _ =>
        (alike_expectWith _ _).bind fun _ _ _ => alike_pure rfl

theorem alike_attempt (goal : Goal) :
    Alike rename Eq (attempt recur goal) (attempt recur goal) := by
  cases goal with
  | rule rule => exact alike_follow hrecur rule
  | expression power =>
      refine alike_get.bind fun parser other hrenamed => ?_
      rw [hrenamed.tables, hrenamed.kind_eq]
      cases parser.tables.operand parser.kind with
      | none => exact alike_rejectCurrent _
      | some rule => exact (hrecur _).bind_eq fun _ => hrecur _
  | extension left power =>
      refine alike_get.bind fun parser other hrenamed => ?_
      rw [hrenamed.tables, hrenamed.kind_eq]
      rcases parser.tables.joiner parser.kind with - | ⟨tighter, joiner⟩
      · exact alike_pure rfl
      · exact alike_ite ((hrecur _).bind_eq fun _ => hrecur _) (alike_pure rfl)
  | join joiner left power =>
      cases joiner with
      | binary =>
          refine alike_advance.bind fun token other htoken => ?_
          rw [htoken.kind]
          cases Operator.ofKind? token.kind with
          | none => exact alike_get.bind fun _ _ _ => alike_reject rfl
          | some operator =>
              exact (hrecur _).bind_eq fun right =>
                alike_build _ _ (.op operator left right)
      | comparison =>
          refine (hrecur _).bind_eq fun joined =>
            alike_get.bind fun parser other hrenamed => ?_
          rw [hrenamed.power_eq]
          exact alike_ite (alike_rejectCurrent _) (alike_pure rfl)
  | sequenceAfter head tail =>
      refine alike_get.bind fun parser other hrenamed => ?_
      rw [hrenamed.kind_eq]
      apply alike_ite (alike_pure rfl)
      exact (alike_expect _).bind fun _ _ _ => (hrecur _).bind_eq fun next =>
        (alike_changeTree fun _ _ htree => htree.setSibling tail next).bind_eq
          fun _ => hrecur _

end Recursive

theorem alike_reach (depth : Nat) (goal : Goal) :
    Alike rename Eq (reach depth goal) (reach depth goal) := by
  induction depth generalizing goal with
  | zero => exact fun _ _ _ => .error (.misused .endless .endless)
  | succ depth ih => exact alike_attempt ih goal

theorem alike_program : Alike rename Eq program program := by
  have hpursue : Alike rename Eq (pursue (.rule .sequence))
      (pursue (.rule .sequence)) := by
    refine alike_get.bind fun parser other hrenamed => ?_
    rw [hrenamed.depth_eq]
    exact alike_reach _ _
  refine hpursue.bind_eq fun root =>
    alike_get.bind fun parser other hrenamed => ?_
  rw [hrenamed.kind_eq]
  exact alike_ite (alike_changeTree fun _ _ htree => htree.setRoot root)
    (alike_rejectCurrent _)

end Goals

/-! ## Whole programs -/

section Whole

variable {rename : String → String} {tokens others : List Token}

theorem terminated_renamed
    (htokens : List.Forall₂ (Token.Renamed rename) tokens others) :
    Token.Renamed rename (terminated tokens).1 (terminated others).1 ∧
      List.Forall₂ (Token.Renamed rename) (terminated tokens).2
        (terminated others).2 := by
  induction htokens with
  | nil => exact ⟨Token.renamed_endOfInput rename 1 1, .nil⟩
  | @cons token other rest otherRest htoken hrest ih =>
      cases hrest with
      | nil =>
          unfold terminated
          rw [htoken.kind]
          by_cases hend : token.kind = .endOfInput
          · rw [if_pos hend, if_pos hend]
            exact ⟨htoken, .nil⟩
          · rw [if_neg hend, if_neg hend]
            exact ⟨htoken, .cons (Token.renamed_endOfInput rename _ _) .nil⟩
      | cons hsecond hmore => exact ⟨htoken, .cons ih.1 ih.2⟩

theorem start_renamed
    (htokens : List.Forall₂ (Token.Renamed rename) tokens others)
    (tables : Tables) (file otherFile : String) :
    Renamed rename (start tables tokens file)
      (start tables others otherFile) where
  current := (terminated_renamed htokens).1
  upcoming := (terminated_renamed htokens).2
  tables := rfl
  tree := Tree.renamed_empty

/-- Parsing stops alike on both lists of tokens, or it builds trees that are the
same up to the renaming. -/
theorem parse_renamed
    (htokens : List.Forall₂ (Token.Renamed rename) tokens others)
    (file otherFile : String) :
    (∃ stop other, parse tokens file = .error stop ∧
        parse others otherFile = .error other ∧
        StopsAlike stop other) ∨
      ∃ tree other,
        parse tokens file = .ok tree ∧ parse others otherFile = .ok other ∧
        Tree.Renamed rename tree other := by
  have hends :=
    alike_program _ _ (start_renamed htokens .standard file otherFile)
  unfold parse run
  generalize program (start .standard tokens file) = result at hends ⊢
  generalize program (start .standard others otherFile) = otherResult at hends ⊢
  cases hends with
  | ok _ hafter => exact .inr ⟨_, _, rfl, rfl, hafter.tree⟩
  | error hstop => exact .inl ⟨_, _, rfl, rfl, hstop⟩

end Whole

end Parser
end TinyCompiler
