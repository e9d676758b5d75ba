import TinyCompiler.Proofs.ParserCorrectness

/-!
# Progress of the parser

The current position of a parser never goes back and never leaves the tokens,
whatever the goal, the tables and the depth are.  That nothing else goes wrong
on the way is told by a parser under watch, which raises an alarm where the
parser would have gone back, where a token is taken for an operator and is none,
and where it binds but joins nothing.  On the standard tables it runs as the
parser does, so that no alarm is ever raised.
-/

namespace TinyCompiler.Parser

def remaining (parser : Parser) : List Token :=
  parser.current :: parser.upcoming

/-- The parser stands at a position among the tokens. -/
structure Stands (tokens : List Token) (position : Nat)
    (parser : Parser) : Prop where
  lt_length : position < tokens.length
  remaining_eq : parser.remaining = tokens.drop position

structure Onward (parser after : Parser) : Prop where
  tables : after.tables = parser.tables
  remaining : after.remaining <:+ parser.remaining

/-- What is said of the parser that is left, also when it has stopped. -/
def Leaves (property : Parser → Prop) : EStateM.Result Stop Parser α → Prop
  | .ok _ after => property after
  | .error _ after => property after

def Misuses : EStateM.Result Stop Parser α → Prop
  | .error (.misused _) _ => True
  | _ => False

/-! ## The parser under watch -/

/-- A stop that no parser of the language comes to. -/
def alarm : Action α :=
  throw (.misused .endless)

/-- An action that starts at one of the tokens and does not go back. -/
def watch (tokens : List Token) (action : Action α) : Action α := do
  let parser ← get
  if parser.remaining <:+ tokens then
    let value ← action
    if (← get).remaining <:+ parser.remaining then pure value else alarm
  else alarm

section Watched

variable (recur : Goal → Action NodeId)

/-- Which operands a token binds and what joins them are looked up apart. -/
def extensionWatched (left : NodeId) (power : BindingPower) :
    Action NodeId := do
  let parser ← get
  if power.rank < parser.power.rank then
    match parser.tables.joiner parser.kind with
    | none => alarm
    | some (_, joiner) => do
        let joined ← recur (.join joiner left parser.power)
        recur (.extension joined power)
  else pure left

def binaryWatched (left : NodeId) (power : BindingPower) : Action NodeId := do
  let token ← advance
  match Operator.ofKind? token.kind with
  | none => alarm
  | some operator => do
      let right ← recur (.expression power)
      build token.line (.op operator left right)

def attemptWatched : Goal → Action NodeId
  | .extension left power => extensionWatched recur left power
  | .join .binary left power => binaryWatched recur left power
  | goal => attempt recur goal

end Watched

def reachWatched (tokens : List Token) : Nat → Goal → Action NodeId
  | 0, _ => alarm
  | depth + 1, goal =>
      watch tokens (attemptWatched (reachWatched tokens depth) goal)

def programWatched (tokens : List Token) (depth : Nat) : Action Unit := do
  let root ← reachWatched tokens depth (.rule .sequence)
  if (← get).kind = .endOfInput then changeTree fun tree => tree.setRoot root
  else rejectCurrent "code ends before file"

/-! ## Positions -/

section Positions

variable {tokens : List Token} {parser middle after : Parser} {position : Nat}

theorem Onward.refl (parser : Parser) : Onward parser parser :=
  ⟨rfl, List.suffix_rfl⟩

theorem Onward.trans (hfirst : Onward parser middle)
    (hnext : Onward middle after) :
    Onward parser after :=
  ⟨hnext.tables.trans hfirst.tables, hnext.remaining.trans hfirst.remaining⟩

theorem onward_advanced (parser : Parser) : Onward parser parser.advanced := by
  obtain ⟨current, upcoming, file, tables, tree⟩ := parser
  cases upcoming with
  | nil => exact Onward.refl _
  | cons next rest => exact ⟨rfl, List.suffix_cons current (next :: rest)⟩

theorem Stands.onward (hstands : Stands tokens position parser)
    (honward : Onward parser after) :
    ∃ later, position ≤ later ∧ Stands tokens later after := by
  obtain ⟨passed, hpassed⟩ := honward.remaining
  have hdrop : after.remaining = tokens.drop (position + passed.length) := by
    rw [← List.drop_drop, ← hstands.remaining_eq, ← hpassed, List.drop_left]
  have hlength := congrArg List.length hdrop
  rw [List.length_drop, remaining, List.length_cons] at hlength
  exact ⟨position + passed.length, Nat.le_add_right _ _, by omega, hdrop⟩

theorem stands_start (tokens : List Token) (file : String) :
    Stands (terminatedTokens tokens) 0 (start .standard tokens file) :=
  ⟨Nat.succ_pos _, rfl⟩

theorem terminatedTokens_closed (tokens : List Token) :
    ∃ front last,
      terminatedTokens tokens = front ++ [last] ∧ last.kind = .endOfInput := by
  induction tokens using terminated.induct with
  | case1 => exact ⟨[], Token.endOfInput 1, rfl, rfl⟩
  | case2 last hlast =>
      exact ⟨[], last, by simp [terminatedTokens, terminated, hlast], hlast⟩
  | case3 last hlast =>
      exact ⟨[last], Token.endOfInput last.line,
        by simp [terminatedTokens, terminated, hlast], rfl⟩
  | case4 first second rest ih =>
      obtain ⟨front, last, htokens, hlast⟩ := ih
      exact ⟨first :: front, last,
        by rw [terminatedTokens_cons_cons, htokens]; rfl, hlast⟩

end Positions

/-! ## Single actions -/

def Placed (tokens : List Token) (parser : Parser) : Prop :=
  parser.tables = .standard ∧ parser.remaining <:+ tokens

/-- The plain action leads onward, and the watched one does the same from a
parser of the language, where it `fits` and the plain one is no misuse. -/
def ConfirmsAt (tokens : List Token) (fits : Prop) (watched plain : Action α)
    (parser : Parser) : Prop :=
  Leaves (Onward parser) (plain parser) ∧
    (fits → Placed tokens parser → ¬ Misuses (plain parser) →
      watched parser = plain parser)

def Confirms (tokens : List Token) (watched plain : Action α) : Prop :=
  ∀ parser, ConfirmsAt tokens True watched plain parser

section Single

variable {α β : Type} {tokens : List Token} {fits other : Prop}
  {parser after : Parser}

theorem Placed.onward (hplaced : Placed tokens parser)
    (honward : Onward parser after) :
    Placed tokens after :=
  ⟨honward.tables.trans hplaced.1, honward.remaining.trans hplaced.2⟩

theorem ConfirmsAt.imp {watched plain : Action α}
    (hconfirms : ConfirmsAt tokens fits watched plain parser)
    (himp : other → fits) :
    ConfirmsAt tokens other watched plain parser :=
  ⟨hconfirms.1, fun hother => hconfirms.2 (himp hother)⟩

theorem ConfirmsAt.bind_ok {watched plain : Action α}
    {next nextPlain : α → Action β}
    (hfirst : ConfirmsAt tokens fits watched plain parser)
    (hnext : ∀ value after, plain parser = .ok value after →
      ConfirmsAt tokens fits (next value) (nextPlain value) after) :
    ConfirmsAt tokens fits (watched >>= next) (plain >>= nextPlain) parser := by
  obtain ⟨hleaves, hsame⟩ := hfirst
  cases hresult : plain parser with
  | error stop after =>
      rw [hresult] at hleaves hsame
      rw [ConfirmsAt, bind_apply_of_error hresult]
      refine ⟨hleaves, fun hfits hplaced hsound => ?_⟩
      cases stop with
      | rejected diagnostic =>
          exact bind_apply_of_error (hsame hfits hplaced hsound) next
      | misused fault => exact absurd trivial hsound
  | ok value middle =>
      rw [hresult] at hleaves hsame
      obtain ⟨hbehind, hrest⟩ := hnext value middle hresult
      rw [ConfirmsAt, bind_apply_of_ok hresult]
      refine ⟨?_, fun hfits hplaced hsound => ?_⟩
      · cases hend : nextPlain value middle with
        | ok result after =>
            rw [hend] at hbehind
            exact Onward.trans hleaves hbehind
        | error stop after =>
            rw [hend] at hbehind
            exact Onward.trans hleaves hbehind
      · rw [bind_apply_of_ok (hsame hfits hplaced id)]
        exact hrest hfits (hplaced.onward hleaves) hsound

theorem ConfirmsAt.bind {watched plain : Action α}
    {next nextPlain : α → Action β}
    (hfirst : ConfirmsAt tokens fits watched plain parser)
    (hnext : ∀ value, Confirms tokens (next value) (nextPlain value)) :
    ConfirmsAt tokens fits (watched >>= next) (plain >>= nextPlain) parser :=
  hfirst.bind_ok fun value after _ => (hnext value after).imp fun _ => trivial

theorem Confirms.bind {watched plain : Action α} {next nextPlain : α → Action β}
    (hfirst : Confirms tokens watched plain)
    (hnext : ∀ value, Confirms tokens (next value) (nextPlain value)) :
    Confirms tokens (watched >>= next) (plain >>= nextPlain) :=
  fun parser => (hfirst parser).bind hnext

theorem confirms_of_leaves {action : Action α}
    (hleaves : ∀ parser, Leaves (Onward parser) (action parser)) :
    Confirms tokens action action :=
  fun parser => ⟨hleaves parser, fun _ _ _ => rfl⟩

theorem confirms_get_bind {next nextPlain : Parser → Action α}
    (hnext : ∀ parser,
      ConfirmsAt tokens True (next parser) (nextPlain parser) parser) :
    Confirms tokens (get >>= next) (get >>= nextPlain) :=
  hnext

theorem confirms_ite {condition : Prop} [Decidable condition]
    {watched plain : Action α} {otherWatched otherPlain : Action α}
    (hfirst : Confirms tokens watched plain)
    (hother : Confirms tokens otherWatched otherPlain) :
    Confirms tokens (if condition then watched else otherWatched)
      (if condition then plain else otherPlain) := by
  by_cases hcondition : condition
  · rwa [if_pos hcondition, if_pos hcondition]
  · rwa [if_neg hcondition, if_neg hcondition]

theorem confirms_pure (value : α) :
    Confirms tokens (pure value : Action α) (pure value) :=
  confirms_of_leaves Onward.refl

theorem confirms_reject (diagnostic : Diagnostic) :
    Confirms tokens (reject diagnostic : Action α) (reject diagnostic) :=
  confirms_of_leaves Onward.refl

theorem confirms_rejectCurrent (detail : String) :
    Confirms tokens (rejectCurrent detail : Action α) (rejectCurrent detail) :=
  confirms_of_leaves Onward.refl

theorem confirms_advance : Confirms tokens advance advance :=
  confirms_of_leaves onward_advanced

theorem confirms_expectOr (kind : Token.Kind) (diagnostic : Diagnostic) :
    Confirms tokens (expectOr kind diagnostic) (expectOr kind diagnostic) :=
  confirms_get_bind fun parser =>
    confirms_ite confirms_advance (confirms_reject _) parser

theorem confirms_expect (kind : Token.Kind) :
    Confirms tokens (expect kind) (expect kind) :=
  confirms_get_bind fun parser => confirms_expectOr kind _ parser

theorem confirms_expectWith (kind : Token.Kind) (detail : String) :
    Confirms tokens (expectWith kind detail) (expectWith kind detail) :=
  confirms_get_bind fun parser => confirms_expectOr kind _ parser

theorem confirms_build (line : Nat) (form : Form) :
    Confirms tokens (build line form) (build line form) := by
  apply confirms_of_leaves
  intro parser
  unfold build
  cases parser.tree.add line form with
  | error fault => exact Onward.refl parser
  | ok added => exact ⟨rfl, List.suffix_rfl⟩

theorem confirms_changeTree (change : Tree → Except Tree.Fault Tree) :
    Confirms tokens (changeTree change) (changeTree change) := by
  apply confirms_of_leaves
  intro parser
  unfold changeTree
  cases change parser.tree with
  | error fault => exact Onward.refl parser
  | ok tree => exact ⟨rfl, List.suffix_rfl⟩

theorem ConfirmsAt.watch {watched plain : Action α}
    (hconfirms : ConfirmsAt tokens fits watched plain parser) :
    ConfirmsAt tokens fits (watch tokens watched) plain parser := by
  refine ⟨hconfirms.1, fun hfits hplaced hsound => ?_⟩
  have hsame := hconfirms.2 hfits hplaced hsound
  have hleaves := hconfirms.1
  unfold Parser.watch
  rw [bind_apply_of_ok (get_apply _), if_pos hplaced.2]
  cases hresult : plain parser with
  | ok value after =>
      rw [hresult] at hsame hleaves
      rw [bind_apply_of_ok hsame, bind_apply_of_ok (get_apply _),
        if_pos hleaves.remaining, pure_apply]
  | error stop after =>
      rw [hresult] at hsame
      exact bind_apply_of_error hsame _

end Single

/-! ## Goals -/

/-- Operands are joined at a token that joins. -/
def Fits : Goal → Parser → Prop
  | .join _ _ _, parser => (parser.tables.joiner parser.kind).isSome
  | _, _ => True

def Upholds (tokens : List Token) (watched recur : Goal → Action NodeId) :
    Prop :=
  ∀ goal parser,
    ConfirmsAt tokens (Fits goal parser) (watched goal) (recur goal) parser

section Goals

variable {tokens : List Token} {watched recur : Goal → Action NodeId}

theorem operator_of_joiner {kind : Token.Kind}
    (hjoins : (Tables.standardJoiner kind).isSome) :
    ∃ operator, Operator.ofKind? kind = some operator := by
  rw [← Option.isSome_iff_exists]
  revert hjoins
  cases kind <;> decide

theorem confirms_primary : Confirms tokens primary primary := by
  refine confirms_get_bind fun parser => ?_
  dsimp only
  split
  · split
    · exact confirms_reject _ parser
    · exact confirms_advance.bind (fun _ => confirms_build _ _) parser
  · exact confirms_advance.bind (fun _ => confirms_build _ _) parser
  · exact confirms_rejectCurrent _ parser

section Recursive

variable (hrecur : Upholds tokens watched recur)
include hrecur

theorem Upholds.rule (rule : Rule) :
    Confirms tokens (watched (.rule rule)) (recur (.rule rule)) :=
  hrecur (.rule rule)

theorem Upholds.expression (power : BindingPower) :
    Confirms tokens (watched (.expression power)) (recur (.expression power)) :=
  hrecur (.expression power)

theorem Upholds.extension (left : NodeId) (power : BindingPower) :
    Confirms tokens (watched (.extension left power))
      (recur (.extension left power)) :=
  hrecur (.extension left power)

theorem Upholds.sequenceAfter (head tail : NodeId) :
    Confirms tokens (watched (.sequenceAfter head tail))
      (recur (.sequenceAfter head tail)) :=
  hrecur (.sequenceAfter head tail)

theorem confirms_ifStatement :
    Confirms tokens (ifStatement watched) (ifStatement recur) := by
  refine confirms_advance.bind fun keyword =>
    (hrecur.expression _).bind fun test =>
    (confirms_expect _).bind fun _ => (hrecur.rule _).bind fun thenPart => ?_
  have hend : ∀ elsePart,
      Confirms tokens (do
        let _ ← expect .endWord
        build keyword.line (.ifElse test thenPart elsePart)) (do
        let _ ← expect .endWord
        build keyword.line (.ifElse test thenPart elsePart)) :=
    fun elsePart => (confirms_expect _).bind fun _ => confirms_build _ _
  refine confirms_get_bind fun parser => confirms_ite ?_ ?_ parser
  · exact confirms_advance.bind fun _ => (hrecur.rule _).bind fun part =>
      (confirms_pure _).bind fun elsePart => hend elsePart
  · exact (confirms_pure _).bind fun elsePart => hend elsePart

theorem confirms_follow (rule : Rule) :
    Confirms tokens (follow watched rule) (follow recur rule) := by
  cases rule with
  | ifStatement => exact confirms_ifStatement hrecur
  | repeatStatement =>
      exact confirms_advance.bind fun _ => (hrecur.rule _).bind fun _ =>
        (confirms_expect _).bind fun _ => (hrecur.expression _).bind fun _ =>
          confirms_build _ _
  | assignment =>
      exact (confirms_expect _).bind fun _ => (confirms_expectWith _ _).bind
        fun _ => (hrecur.expression _).bind fun _ => confirms_build _ _
  | readStatement =>
      exact confirms_advance.bind fun _ => (confirms_expectWith _ _).bind
        fun _ => confirms_build _ _
  | writeStatement =>
      exact confirms_advance.bind fun _ => (hrecur.expression _).bind fun _ =>
        confirms_build _ _
  | statement =>
      refine confirms_get_bind fun parser => ?_
      cases parser.tables.statement parser.kind with
      | none => exact confirms_rejectCurrent _ parser
      | some rule => exact hrecur.rule rule parser
  | sequence => exact (hrecur.rule _).bind fun _ => hrecur.sequenceAfter _ _
  | primary => exact confirms_primary
  | grouping =>
      exact confirms_advance.bind fun _ => (hrecur.expression _).bind fun _ =>
        (confirms_expectWith _ _).bind fun _ => confirms_pure _

theorem confirms_extension (left : NodeId) (power : BindingPower) :
    Confirms tokens (extensionWatched watched left power)
      (extension recur left power) := by
  refine confirms_get_bind fun parser => ?_
  -- The two tables are one: what binds is what joins.
  rcases hjoiner : parser.tables.joiner parser.kind with - | ⟨tighter, joiner⟩
  · have hpower : parser.power = .default := by
      unfold Parser.power
      rw [hjoiner]
    have hloose : ¬ power.rank < BindingPower.default.rank :=
      Nat.not_lt_zero power.rank
    rw [hpower, if_neg hloose]
    exact confirms_pure left parser
  · have hpower : parser.power = tighter := by
      unfold Parser.power
      rw [hjoiner]
    have hfits : Fits (.join joiner left tighter) parser := by
      rw [Fits, hjoiner]
      rfl
    rw [hpower]
    by_cases htighter : power.rank < tighter.rank
    · simp only [if_pos htighter]
      exact ((hrecur (.join joiner left tighter) parser).imp fun _ =>
        hfits).bind fun joined =>
        hrecur.extension joined power
    · simp only [if_neg htighter]
      exact confirms_pure left parser

theorem confirmsAt_binary (left : NodeId) (power : BindingPower)
    (parser : Parser) :
    ConfirmsAt tokens (Fits (.join .binary left power) parser)
      (binaryWatched watched left power)
      (binary recur left power) parser := by
  refine ((confirms_advance parser).imp fun _ => trivial).bind_ok
    fun token after hrun => ?_
  obtain ⟨rfl, rfl⟩ : parser.current = token ∧ parser.advanced = after := by
    cases hrun
    exact ⟨rfl, rfl⟩
  cases hoperator : Operator.ofKind? parser.current.kind with
  | none =>
      refine ⟨Onward.refl _, fun hfits hplaced => ?_⟩
      rw [Fits, ← (onward_advanced parser).tables, hplaced.1] at hfits
      obtain ⟨operator, hsome⟩ := operator_of_joiner hfits
      rw [kind, hoperator] at hsome
      cases hsome
  | some operator =>
      exact ((hrecur.expression power).bind (fun _ => confirms_build _ _) _).imp
        fun _ => trivial

theorem confirmsAt_comparison (left : NodeId) (power : BindingPower)
    (parser : Parser) :
    ConfirmsAt tokens (Fits (.join .comparison left power) parser)
      (comparison watched left power) (comparison recur left power) parser :=
  (hrecur (.join .binary left power) parser).bind fun joined =>
    confirms_get_bind fun after =>
      confirms_ite (confirms_rejectCurrent _) (confirms_pure joined) after

theorem upholds_attempt :
    Upholds tokens (attemptWatched watched) (attempt recur) := by
  intro goal
  cases goal with
  | rule rule => exact confirms_follow hrecur rule
  | expression power =>
      refine confirms_get_bind fun parser => ?_
      cases parser.tables.operand parser.kind with
      | none => exact confirms_rejectCurrent _ parser
      | some rule =>
          exact (hrecur.rule rule).bind (fun _ => hrecur.extension _ _) parser
  | extension left power => exact confirms_extension hrecur left power
  | join joiner left power =>
      cases joiner with
      | binary => exact confirmsAt_binary hrecur left power
      | comparison => exact confirmsAt_comparison hrecur left power
  | sequenceAfter head tail =>
      refine confirms_get_bind fun parser =>
        confirms_ite (confirms_pure _) ?_ parser
      exact (confirms_expect _).bind fun _ => (hrecur.rule _).bind fun next =>
        (confirms_changeTree _).bind fun _ => hrecur.sequenceAfter _ _

end Recursive

theorem upholds_reach (tokens : List Token) {depth larger : Nat}
    (hle : depth ≤ larger) :
    Upholds tokens (reachWatched tokens larger) (reach depth) := by
  induction depth generalizing larger with
  | zero => exact fun goal parser =>
      ⟨Onward.refl parser, fun _ _ hsound => absurd trivial hsound⟩
  | succ depth ih =>
      obtain ⟨larger, rfl⟩ := Nat.exists_eq_add_of_le' hle
      exact fun goal parser =>
        (upholds_attempt (ih (Nat.le_add_left depth larger)) goal parser).watch

end Goals

/-! ## Whole programs -/

section Whole

variable {tokens : List Token} {parser : Parser} {depth larger position : Nat}

theorem confirms_program (tokens : List Token) (hle : depth ≤ larger) :
    Confirms tokens (programWatched tokens larger) (programWithin depth) :=
  ((upholds_reach tokens hle).rule _).bind fun _ =>
    confirms_get_bind fun parser =>
    confirms_ite (confirms_changeTree _) (confirms_rejectCurrent _) parser

theorem reach_stands (hstands : Stands tokens position parser) (depth : Nat)
    (goal : Goal) :
    Leaves (fun after => ∃ later, position ≤ later ∧ Stands tokens later after)
      (reach depth goal parser) := by
  have hleaves := (upholds_reach tokens (Nat.le_refl depth) goal parser).1
  cases hresult : reach depth goal parser with
  | ok id after =>
      rw [hresult] at hleaves
      exact hstands.onward hleaves
  | error stop after =>
      rw [hresult] at hleaves
      exact hstands.onward hleaves

theorem programWithin_sound (tokens : List Token) (file : String)
    (hdepth : (start .standard tokens file).depth ≤ depth) :
    ¬ Misuses (programWithin depth (start .standard tokens file)) := by
  have hended := terminatedTokens_ended tokens
  have henough : Enough depth 3 (terminatedTokens tokens) := by
    have hdefault := enough_depth (terminatedTokens tokens)
    rw [start_standard, depth_before hended.ne_nil] at hdepth
    unfold Enough at *
    omega
  rw [start_standard]
  rcases programWithin_cases file hended henough with
    hoffends | ⟨sequence, last, rest, hsplit, hlast, hreadable⟩
  · obtain ⟨diagnostic, parser, hrejected⟩ := hoffends.rejected
    rw [hrejected]
    exact id
  · rw [hsplit] at henough ⊢
    rw [programWithin_before sequence hreadable hlast henough]
    exact id

theorem program_confirmed (tokens : List Token) (file : String)
    (hdepth : (start .standard tokens file).depth ≤ depth) :
    programWithin depth (start .standard tokens file) =
      program (start .standard tokens file) ∧
      programWatched (terminatedTokens tokens) depth
        (start .standard tokens file) =
        program (start .standard tokens file) := by
  have hplaced : Placed (terminatedTokens tokens)
      (start .standard tokens file) :=
    ⟨rfl, List.suffix_rfl⟩
  have hwatched : ∀ {depth larger},
      (start .standard tokens file).depth ≤ depth →
      depth ≤ larger → programWatched (terminatedTokens tokens) larger
        (start .standard tokens file) =
          programWithin depth (start .standard tokens file) :=
    fun hdepth hle =>
      (confirms_program _ hle _).2 trivial hplaced
        (programWithin_sound tokens file hdepth)
  rw [program_eq_programWithin, ← hwatched (Nat.le_refl _) hdepth]
  exact ⟨(hwatched hdepth (Nat.le_refl _)).symm, rfl⟩

/-- The tokens are closed by an end of input, and the parser always ends with a
tree or with a diagnostic, at one of them.  No goal leads back, and one that
leads on stays among them.  The depth given is enough, and no alarm is raised on
the way. -/
theorem parse_settles_in_place (tokens : List Token) (file : String) :
    let closed := terminatedTokens tokens
    let parser := start .standard tokens file
    (∃ front last, closed = front ++ [last] ∧ last.kind = .endOfInput) ∧
    ((∃ tree, parse tokens file = .ok tree) ∨
      ∃ diagnostic, parse tokens file = .error (.rejected diagnostic)) ∧
    Stands closed 0 parser ∧
      (∃ position, Stands closed position (run tokens file).2) ∧
    (∀ depth goal position parser, Stands closed position parser →
      Leaves (fun after => ∃ later,
        position ≤ later ∧ Stands closed later after)
        (reach depth goal parser)) ∧
    ∀ depth, parser.depth ≤ depth →
      programWithin depth parser = program parser ∧
        programWatched closed depth parser = program parser := by
  have hrun : ∃ position,
      Stands (terminatedTokens tokens) position (run tokens file).2 := by
    have hstart := stands_start tokens file
    have hleaves := (confirms_program (terminatedTokens tokens)
      (Nat.le_refl (start .standard tokens file).depth)
        (start .standard tokens file)).1
    rw [← program_eq_programWithin] at hleaves
    unfold run
    cases hresult : program (start .standard tokens file) with
    | ok value after =>
        rw [hresult] at hleaves
        exact (hstart.onward hleaves).imp fun _ hlater => hlater.2
    | error stop after =>
        rw [hresult] at hleaves
        exact (hstart.onward hleaves).imp fun _ hlater => hlater.2
  refine ⟨terminatedTokens_closed tokens, ?_,
    stands_start tokens file, hrun, ?_, ?_⟩
  · rcases parse_cases tokens file with hrejected | ⟨sequence, -, -, hparse⟩
    · exact .inr hrejected
    · exact .inl ⟨sequence.tree, hparse⟩
  · exact fun depth goal position parser hstands =>
      reach_stands hstands depth goal
  · exact fun depth hdepth => program_confirmed tokens file hdepth

/-- An end of input in the middle, and none at the end. -/
def openTokens : List Token :=
  [⟨.writeWord, "write", 1⟩, ⟨.endOfInput, "EOF", 1⟩, ⟨.plus, "+", 2⟩]

def openParser : Parser :=
  start .standard openTokens "sample"

theorem open_tokens_settle_in_place :
    (∃ position, Stands (terminatedTokens openTokens) position
      (run openTokens "sample").2) ∧
      openParser.depth ≤ 1000 ∧
      programWatched (terminatedTokens openTokens) 1000 openParser =
        program openParser := by
  have hdepth : openParser.depth ≤ 1000 := by decide
  obtain ⟨-, -, -, hrun, -, hconfirmed⟩ :=
    parse_settles_in_place openTokens "sample"
  exact ⟨hrun, hdepth, (hconfirmed 1000 hdepth).2⟩

end Whole

end TinyCompiler.Parser
