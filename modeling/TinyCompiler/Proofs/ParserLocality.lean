import TinyCompiler.Proofs.Actions
import TinyCompiler.Parser.Rules

/-!
# What a parser has looked at

A parser decides by the token it stands at, never by those behind it.  A run
that ends at a token with others behind it goes the same way when the tokens
behind that one are exchanged, and also with more depth, as long as it ends with
a node or with a diagnostic.  This holds of a goal, whatever the tables are, if
it holds of the goals it is reached through.
-/

namespace TinyCompiler.Parser

/-- The parser at the same token, with other tokens behind it. -/
def facing (parser : Parser) (upcoming : List Token) : Parser :=
  { parser with upcoming := upcoming }

/-- An action that starts from the parser and passes some of its tokens comes to
the same result when other tokens follow those. -/
def Repeats (action : Action α) (parser after : Parser)
    (result : Parser → EStateM.Result Stop Parser α) : Prop :=
  ∃ passed, parser.upcoming = passed ++ after.upcoming ∧
    (after.upcoming ≠ [] → ∀ others,
      action (parser.facing (passed ++ others)) = result (after.facing others))

/-- The action repeats a result of another one; a misuse need not be
repeated. -/
def RepeatsResult (action : Action α) (parser : Parser) :
    EStateM.Result Stop Parser α → Prop
  | .ok value after => Repeats action parser after (.ok value)
  | .error (.rejected diagnostic) after =>
      Repeats action parser after (.error (.rejected diagnostic))
  | .error (.misused _) _ => True

/-- Whatever comes of the first action, the second one repeats it. -/
def Agrees (first second : Action α) : Prop :=
  ∀ parser, RepeatsResult second parser (first parser)

/-! ## Single actions -/

section Single

variable {α β : Type} {parser middle after : Parser}

theorem Repeats.stay {action : Action α}
    {result : Parser → EStateM.Result Stop Parser α}
    (hafter : after.upcoming = parser.upcoming)
    (haction : ∀ others,
      action (parser.facing others) = result (after.facing others)) :
    Repeats action parser after result :=
  ⟨[], hafter.symm, fun _ others => haction others⟩

theorem Repeats.bind_ok {first : Action α} {next : α → Action β} {value : α}
    {result : Parser → EStateM.Result Stop Parser β}
    (hfirst : Repeats first parser middle (.ok value))
    (hnext : Repeats (next value) middle after result) :
    Repeats (first >>= next) parser after result := by
  obtain ⟨passed, hpassed, hfirst⟩ := hfirst
  obtain ⟨further, hfurther, hnext⟩ := hnext
  refine ⟨passed ++ further, by rw [hpassed, hfurther, List.append_assoc], ?_⟩
  intro hafter others
  have hmiddle : middle.upcoming ≠ [] := by simp [hfurther, hafter]
  rw [List.append_assoc, bind_apply_of_ok (hfirst hmiddle (further ++ others)),
    hnext hafter others]

theorem Repeats.bind_error {first : Action α} {stop : Stop}
    (hfirst : Repeats first parser after (.error stop)) (next : α → Action β) :
    Repeats (first >>= next) parser after (.error stop) := by
  obtain ⟨passed, hpassed, hfirst⟩ := hfirst
  exact ⟨passed, hpassed,
    fun hafter others => bind_apply_of_error (hfirst hafter others) next⟩

theorem Agrees.bind {first second : Action α} {next nextSecond : α → Action β}
    (hfirst : Agrees first second)
    (hnext : ∀ value, Agrees (next value) (nextSecond value)) :
    Agrees (first >>= next) (second >>= nextSecond) := by
  intro parser
  have hrepeats := hfirst parser
  rw [bind_apply]
  match hresult : first parser with
  | .ok value middle =>
      rw [hresult] at hrepeats
      have hbehind := hnext value middle
      dsimp only
      match hend : next value middle with
      | .ok result after =>
          rw [hend] at hbehind
          exact Repeats.bind_ok hrepeats hbehind
      | .error (.rejected diagnostic) after =>
          rw [hend] at hbehind
          exact Repeats.bind_ok hrepeats hbehind
      | .error (.misused fault) after => trivial
  | .error (.rejected diagnostic) after =>
      rw [hresult] at hrepeats
      exact hrepeats.bind_error nextSecond
  | .error (.misused fault) after => trivial

/-- An action may ask for anything but the tokens behind the current one. -/
theorem agrees_get_bind {next nextSecond : Parser → Action α}
    (hsame : ∀ parser others,
      nextSecond (facing parser others) = nextSecond parser)
    (hnext : ∀ parser, Agrees (next parser) (nextSecond parser)) :
    Agrees (get >>= next) (get >>= nextSecond) := by
  have hback : ∀ {parser after : Parser}
      {result : Parser → EStateM.Result Stop Parser α},
      Repeats (nextSecond parser) parser after result →
        Repeats (get >>= nextSecond) parser after result := by
    rintro parser after result ⟨passed, hpassed, hrun⟩
    refine ⟨passed, hpassed, fun hafter others => ?_⟩
    rw [bind_apply_of_ok (get_apply _), hsame, hrun hafter others]
  intro parser
  have hrepeats := hnext parser parser
  rw [bind_apply_of_ok (get_apply _)]
  match hresult : next parser parser with
  | .ok value after =>
      rw [hresult] at hrepeats
      exact hback hrepeats
  | .error (.rejected diagnostic) after =>
      rw [hresult] at hrepeats
      exact hback hrepeats
  | .error (.misused fault) after => trivial

theorem agrees_pure (value : α) : Agrees (pure value : Action α) (pure value) :=
  fun _ => Repeats.stay rfl fun _ => rfl

theorem agrees_reject (diagnostic : Diagnostic) :
    Agrees (reject diagnostic : Action α) (reject diagnostic) :=
  fun _ => Repeats.stay rfl fun _ => rfl

theorem agrees_ite {condition : Prop} [Decidable condition]
    {first second : Action α} {other otherSecond : Action α}
    (hfirst : Agrees first second) (hother : Agrees other otherSecond) :
    Agrees (if condition then first else other)
      (if condition then second else otherSecond) := by
  by_cases hcondition : condition
  · rwa [if_pos hcondition, if_pos hcondition]
  · rwa [if_neg hcondition, if_neg hcondition]

theorem agrees_rejectCurrent (detail : String) :
    Agrees (rejectCurrent detail : Action α) (rejectCurrent detail) :=
  agrees_get_bind (fun _ _ => rfl) fun _ => agrees_reject _

theorem agrees_advance : Agrees advance advance := by
  rintro ⟨current, upcoming, file, tables, tree⟩
  cases upcoming with
  | nil => exact ⟨[], rfl, fun hafter => absurd rfl hafter⟩
  | cons next rest => exact ⟨[next], rfl, fun _ others => rfl⟩

theorem agrees_expectOr (kind : Token.Kind) (diagnostic : Diagnostic) :
    Agrees (expectOr kind diagnostic) (expectOr kind diagnostic) :=
  agrees_get_bind (fun _ _ => rfl) fun _ =>
    agrees_ite agrees_advance (agrees_reject _)

theorem agrees_expect (kind : Token.Kind) :
    Agrees (expect kind) (expect kind) :=
  agrees_get_bind (fun _ _ => rfl) fun _ => agrees_expectOr kind _

theorem agrees_expectWith (kind : Token.Kind) (detail : String) :
    Agrees (expectWith kind detail) (expectWith kind detail) :=
  agrees_get_bind (fun _ _ => rfl) fun _ => agrees_expectOr kind _

/-- An action that changes the tree only repeats itself. -/
theorem repeatsResult_of_ok {action : Action α} {value : α} {tree : Tree}
    (hrun : ∀ others, action (parser.facing others) =
      .ok value { parser.facing others with tree := tree }) :
    RepeatsResult action parser (action parser) := by
  have hself : action parser = .ok value { parser with tree := tree } :=
    hrun parser.upcoming
  rw [hself]
  exact Repeats.stay rfl hrun

theorem agrees_changeTree (change : Tree → Except Tree.Fault Tree) :
    Agrees (changeTree change) (changeTree change) := by
  intro parser
  cases hchange : change parser.tree with
  | error fault =>
      have hrun : changeTree change parser =
          .error (.misused fault) parser := by
        simp only [changeTree, hchange]
      rw [hrun]
      trivial
  | ok tree =>
      have hrun : ∀ others, changeTree change (parser.facing others) =
          .ok () { parser.facing others with tree := tree } := by
        intro others
        simp only [changeTree, facing, hchange]
      exact repeatsResult_of_ok hrun

theorem agrees_build (line : Nat) (form : Form) :
    Agrees (build line form) (build line form) := by
  intro parser
  cases hadd : parser.tree.add line form with
  | error fault =>
      have hrun : build line form parser = .error (.misused fault) parser := by
        simp only [build, hadd]
      rw [hrun]
      trivial
  | ok added =>
      have hrun : ∀ others, build line form (parser.facing others) =
          .ok added.1 { parser.facing others with tree := added.2 } := by
        intro others
        simp only [build, facing, hadd]
      exact repeatsResult_of_ok hrun

end Single

/-! ## Goals -/

section Goals

variable {recur more : Goal → Action NodeId}

theorem agrees_primary : Agrees primary primary := by
  refine agrees_get_bind (fun _ _ => rfl) fun parser => ?_
  dsimp only
  split
  · split
    · exact agrees_reject _
    · exact agrees_advance.bind fun _ => agrees_build _ _
  · exact agrees_advance.bind fun _ => agrees_build _ _
  · exact agrees_rejectCurrent _

section Recursive

variable (hrecur : ∀ goal, Agrees (recur goal) (more goal))
include hrecur

theorem agrees_ifStatement : Agrees (ifStatement recur) (ifStatement more) := by
  refine agrees_advance.bind fun keyword => (hrecur _).bind fun test =>
    (agrees_expect _).bind fun _ => (hrecur _).bind fun thenPart => ?_
  have hend : ∀ elsePart,
      Agrees (do
        let _ ← expect .endWord
        build keyword.line (.ifElse test thenPart elsePart)) (do
        let _ ← expect .endWord
        build keyword.line (.ifElse test thenPart elsePart)) :=
    fun elsePart => (agrees_expect _).bind fun _ => agrees_build _ _
  refine agrees_get_bind (fun _ _ => rfl) fun parser => agrees_ite ?_ ?_
  · exact agrees_advance.bind fun _ => (hrecur _).bind fun part =>
      (agrees_pure _).bind fun elsePart => hend elsePart
  · exact (agrees_pure _).bind fun elsePart => hend elsePart

theorem agrees_follow (rule : Rule) :
    Agrees (follow recur rule) (follow more rule) := by
  cases rule with
  | ifStatement => exact agrees_ifStatement hrecur
  | repeatStatement =>
      exact agrees_advance.bind fun _ => (hrecur _).bind fun _ =>
        (agrees_expect _).bind fun _ => (hrecur _).bind fun _ =>
          agrees_build _ _
  | assignment =>
      exact (agrees_expect _).bind fun _ => (agrees_expectWith _ _).bind
        fun _ => (hrecur _).bind fun _ => agrees_build _ _
  | readStatement =>
      exact agrees_advance.bind fun _ => (agrees_expectWith _ _).bind fun _ =>
        agrees_build _ _
  | writeStatement =>
      exact agrees_advance.bind fun _ => (hrecur _).bind fun _ =>
        agrees_build _ _
  | statement =>
      refine agrees_get_bind (fun _ _ => rfl) fun parser => ?_
      cases parser.tables.statement parser.kind with
      | none => exact agrees_rejectCurrent _
      | some rule => exact hrecur _
  | sequence => exact (hrecur _).bind fun _ => hrecur _
  | primary => exact agrees_primary
  | grouping =>
      exact agrees_advance.bind fun _ => (hrecur _).bind fun _ =>
        (agrees_expectWith _ _).bind fun _ => agrees_pure _

theorem agrees_attempt (goal : Goal) :
    Agrees (attempt recur goal) (attempt more goal) := by
  cases goal with
  | rule rule => exact agrees_follow hrecur rule
  | expression power =>
      refine agrees_get_bind (fun _ _ => rfl) fun parser => ?_
      cases parser.tables.operand parser.kind with
      | none => exact agrees_rejectCurrent _
      | some rule => exact (hrecur _).bind fun _ => hrecur _
  | extension left power =>
      refine agrees_get_bind (fun _ _ => rfl) fun parser => ?_
      rcases parser.tables.joiner parser.kind with - | ⟨tighter, joiner⟩
      · exact agrees_pure _
      · exact agrees_ite ((hrecur _).bind fun _ => hrecur _) (agrees_pure _)
  | join joiner left power =>
      cases joiner with
      | binary =>
          refine agrees_advance.bind fun token => ?_
          cases Operator.ofKind? token.kind with
          | none =>
              exact agrees_get_bind (fun _ _ => rfl) fun _ => agrees_reject _
          | some operator => exact (hrecur _).bind fun _ => agrees_build _ _
      | comparison =>
          exact (hrecur _).bind fun _ => agrees_get_bind (fun _ _ => rfl)
            fun _ => agrees_ite (agrees_rejectCurrent _) (agrees_pure _)
  | sequenceAfter head tail =>
      refine agrees_get_bind (fun _ _ => rfl) fun parser =>
        agrees_ite (agrees_pure _) ?_
      exact (agrees_expect _).bind fun _ => (hrecur _).bind fun next =>
        (agrees_changeTree _).bind fun _ => hrecur _

end Recursive

theorem agrees_reach {depth larger : Nat} (hle : depth ≤ larger) (goal : Goal) :
    Agrees (reach depth goal) (reach larger goal) := by
  induction depth generalizing larger goal with
  | zero => exact fun parser => trivial
  | succ depth ih =>
      obtain ⟨larger, rfl⟩ := Nat.exists_eq_add_of_le' hle
      exact agrees_attempt
        (fun goal => ih (Nat.le_add_left depth larger) goal) goal

end Goals

/-! ## Programs -/

/-- Reading a program with a depth given beforehand. -/
def programWithin (depth : Nat) : Action Unit := do
  let root ← reach depth (.rule .sequence)
  if (← get).kind = .endOfInput then changeTree fun tree => tree.setRoot root
  else rejectCurrent "code ends before file"

theorem program_eq_programWithin (parser : Parser) :
    program parser = programWithin parser.depth parser := by
  simp only [program, pursue, programWithin, bind_apply, get_apply]

theorem agrees_programWithin {depth larger : Nat} (hle : depth ≤ larger) :
    Agrees (programWithin depth) (programWithin larger) :=
  (agrees_reach hle _).bind fun _ => agrees_get_bind (fun _ _ => rfl) fun _ =>
    agrees_ite (agrees_changeTree _) (agrees_rejectCurrent _)

/-- A program that is rejected at a token with others behind it is rejected
there also when the tokens behind are exchanged. -/
theorem programWithin_rejected {depth larger : Nat} (hle : depth ≤ larger)
    {parser after : Parser} {diagnostic : Diagnostic} {passed : List Token}
    (hrejected : programWithin depth parser =
      .error (.rejected diagnostic) after)
    (hpassed : parser.upcoming = passed ++ after.upcoming)
    (hafter : after.upcoming ≠ []) (others : List Token) :
    programWithin larger (parser.facing (passed ++ others)) =
      .error (.rejected diagnostic) (after.facing others) := by
  have hrepeats := agrees_programWithin hle parser
  rw [hrejected] at hrepeats
  obtain ⟨same, hsame, hrun⟩ := hrepeats
  rw [hpassed] at hsame
  rw [List.append_cancel_right hsame, hrun hafter others]

end TinyCompiler.Parser
