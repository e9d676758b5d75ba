import TinyCompiler.Proofs.ParserLocality
import TinyCompiler.Proofs.ParserSoundness

/-!
# The language of the parser

Parsing succeeds exactly on the tokens that are derived as a program, as far as
the first end of input, when every number among them can be read.  The tree is
the one of the derivation, of which there is only one; any other text is
rejected with a diagnostic.
-/

namespace TinyCompiler.Parser

open Grammar

/-- The tokens before the first end of input. -/
def programTokens (tokens : List Token) : List Token :=
  tokens.takeWhile fun token => token.kind ≠ .endOfInput

theorem programTokens_cons (token : Token) (rest : List Token) :
    programTokens (token :: rest) =
      if token.kind = .endOfInput then [] else token :: programTokens rest := by
  by_cases hend : token.kind = .endOfInput <;> simp [programTokens, hend]

/-! ## Terminated tokens -/

/-- The tokens that the parser is started before. -/
def terminatedTokens (tokens : List Token) : List Token :=
  (terminated tokens).1 :: (terminated tokens).2

theorem terminatedTokens_cons_cons (first second : Token) (rest : List Token) :
    terminatedTokens (first :: second :: rest) =
      first :: terminatedTokens (second :: rest) :=
  rfl

theorem terminatedTokens_ended (tokens : List Token) :
    Ended (terminatedTokens tokens) := by
  induction tokens using terminated.induct with
  | case1 => exact ⟨_, List.mem_singleton_self _, rfl⟩
  | case2 last hlast =>
      exact ⟨last, by simp [terminatedTokens, terminated, hlast], hlast⟩
  | case3 last hlast =>
      exact ⟨Token.endOfInput last.line,
        by simp [terminatedTokens, terminated, hlast], rfl⟩
  | case4 first second rest ih =>
      obtain ⟨last, hmem, hlast⟩ := ih
      rw [terminatedTokens_cons_cons]
      exact ⟨last, List.mem_cons_of_mem first hmem, hlast⟩

theorem programTokens_terminatedTokens (tokens : List Token) :
    programTokens (terminatedTokens tokens) = programTokens tokens := by
  induction tokens using terminated.induct with
  | case1 => rfl
  | case2 last hlast => simp [terminatedTokens, terminated, hlast]
  | case3 last hlast =>
      simp [terminatedTokens, terminated, hlast, programTokens,
        Token.endOfInput]
  | case4 first second rest ih =>
      rw [terminatedTokens_cons_cons, programTokens_cons, ih,
        programTokens_cons first]

theorem start_standard (tokens : List Token) (file : String) :
    start .standard tokens file =
      before file Tree.empty (terminatedTokens tokens) := rfl

/-! ## Programs -/

section Programs

variable {file : String} {tokens rest : List Token}

theorem depth_before {tree : Tree} (htokens : tokens ≠ []) :
    (before file tree tokens).depth = 32 * tokens.length := by
  obtain ⟨token, behind, rfl⟩ := List.exists_cons_of_ne_nil htokens
  rfl

theorem enough_depth (tokens : List Token) :
    Enough (32 * tokens.length) 3 tokens := by
  unfold Enough
  omega

theorem programWithin_before (sequence : Sequence)
    (hreadable : Readable sequence.tokens) {last : Token}
    (hlast : last.kind = .endOfInput) {depth : Nat}
    (henough : Enough depth 3 (sequence.tokens ++ last :: rest)) :
    programWithin depth
      (before file Tree.empty (sequence.tokens ++ last :: rest)) =
      .ok () (before file sequence.tree (last :: rest)) := by
  have hcloses : Closes (last :: rest) := ⟨last, rest, rfl, by rw [hlast]; rfl⟩
  have hsequence := sequence.reached file Tree.empty hcloses hreadable henough
  have hroot := sequence.holds_extend_nodes Tree.empty
  rw [programWithin, bind_apply_of_ok hsequence,
    bind_apply_of_ok (get_apply _), kind_before, if_pos hlast]
  refine changeTree_before (Tree.setRoot_eq_ok_iff.mpr ⟨hroot, ?_⟩)
  simp [Sequence.tree, Tree.extend, Tree.empty, Tree.size]

theorem program_before (sequence : Sequence)
    (hreadable : Readable sequence.tokens) {last : Token}
    (hlast : last.kind = .endOfInput) :
    program (before file Tree.empty (sequence.tokens ++ last :: rest)) =
      .ok () (before file sequence.tree (last :: rest)) := by
  rw [program_eq_programWithin, depth_before (by simp)]
  exact programWithin_before sequence hreadable hlast (enough_depth _)

/-- Tokens that come to an end of input start with a program, or one of them is
refused behind the beginning of a program. -/
theorem programWithin_cases (file : String) (hended : Ended tokens)
    {depth : Nat} (henough : Enough depth 3 tokens) :
    Offends (Derived Sequence.tokens) tokens
        (programWithin depth (before file Tree.empty tokens)) ∨
      ∃ (sequence : Sequence) (last : Token) (rest : List Token),
        tokens = sequence.tokens ++ last :: rest ∧ last.kind = .endOfInput ∧
          Readable sequence.tokens := by
  unfold programWithin
  rcases (sound file (tokens.length + 1)).sequence Tree.empty
    (Nat.lt_succ_self _)
    hended henough with hoffends | ⟨sequence, rest, rfl, hreadable, hcloses, -⟩
  · exact .inl (hoffends.bind _ _)
  · have hbehind := hcloses
    obtain ⟨last, behind, rfl, -⟩ := hbehind
    by_cases hlast : last.kind = .endOfInput
    · exact .inr ⟨sequence, last, behind, rfl, hlast, hreadable⟩
    · have hsequence :=
        sequence.reached file Tree.empty hcloses hreadable henough
      refine .inl ?_
      rw [bind_apply_of_ok hsequence, bind_apply_of_ok (get_apply _),
        kind_before, if_neg hlast]
      exact (refuses_rejectCurrent _).offends sequence.tokens [] rfl
        (derived_of_eq sequence (List.append_nil _) (by simpa using hreadable))

theorem program_cases (file : String) (hended : Ended tokens) :
    Offends (Derived Sequence.tokens) tokens
      (program (before file Tree.empty tokens)) ∨
      ∃ (sequence : Sequence) (last : Token) (rest : List Token),
        tokens = sequence.tokens ++ last :: rest ∧ last.kind = .endOfInput ∧
          Readable sequence.tokens := by
  rw [program_eq_programWithin, depth_before hended.ne_nil]
  exact programWithin_cases file hended (enough_depth tokens)

end Programs

/-! ## The end of input -/

section Ends

variable {token : Token} {tokens more : List Token}

@[simp] theorem not_ended_nil : ¬ Ended [] := by
  simp [Ended]

@[simp] theorem ended_cons :
    Ended (token :: tokens) ↔ token.kind = .endOfInput ∨ Ended tokens := by
  simp [Ended]

@[simp] theorem ended_append :
    Ended (tokens ++ more) ↔ Ended tokens ∨ Ended more := by
  simp [Ended, or_and_right, exists_or]

end Ends

end TinyCompiler.Parser

namespace TinyCompiler.Grammar

open TinyCompiler.Parser

theorem Terminal.not_end {kinds : List Token.Kind} (terminal : Terminal kinds)
    (hkinds : .endOfInput ∉ kinds) : terminal.token.kind ≠ .endOfInput := by
  intro hend
  exact hkinds (hend ▸ terminal.kind_mem)

mutual

theorem Exp.not_ended : ∀ exp : Exp, ¬ Ended exp.tokens
  | .mk left rest => by
      simp [Exp.tokens, left.not_ended, rest.not_ended]

theorem Comparison.not_ended :
    ∀ comparison : Comparison, ¬ Ended comparison.tokens
  | .none => not_ended_nil
  | .some operator right => by
      simp [Comparison.tokens, operator.not_end (by decide), right.not_ended]

theorem SimpleExp.not_ended : ∀ simple : SimpleExp, ¬ Ended simple.tokens
  | .mk first rest => by
      simp [SimpleExp.tokens, first.not_ended, rest.not_ended]

theorem Terms.not_ended : ∀ terms : Terms, ¬ Ended terms.tokens
  | .nil => not_ended_nil
  | .cons operator next rest => by
      simp [Terms.tokens, operator.not_end (by decide), next.not_ended,
        rest.not_ended]

theorem Term.not_ended : ∀ term : Term, ¬ Ended term.tokens
  | .mk first rest => by
      simp [Term.tokens, first.not_ended, rest.not_ended]

theorem Factors.not_ended : ∀ factors : Factors, ¬ Ended factors.tokens
  | .nil => not_ended_nil
  | .cons operator next rest => by
      simp [Factors.tokens, operator.not_end (by decide), next.not_ended,
        rest.not_ended]

theorem Factor.not_ended : ∀ factor : Factor, ¬ Ended factor.tokens
  | .group opening inner closing => by
      simp [Factor.tokens, opening.not_end (by decide), inner.not_ended,
        closing.not_end (by decide)]
  | .number token => by
      simp [Factor.tokens, token.not_end (by decide)]
  | .identifier token => by
      simp [Factor.tokens, token.not_end (by decide)]

end

mutual

theorem Statement.not_ended : ∀ statement : Statement, ¬ Ended statement.tokens
  | .ifThen ifWord test thenWord thenPart endWord => by
      simp [Statement.tokens, ifWord.not_end (by decide), test.not_ended,
        thenWord.not_end (by decide), thenPart.not_ended,
        endWord.not_end (by decide)]
  | .ifElse ifWord test thenWord thenPart elseWord elsePart endWord => by
      simp [Statement.tokens, ifWord.not_end (by decide), test.not_ended,
        thenWord.not_end (by decide), thenPart.not_ended,
        elseWord.not_end (by decide), elsePart.not_ended,
        endWord.not_end (by decide)]
  | .repeatUntil repeatWord body untilWord test => by
      simp [Statement.tokens, repeatWord.not_end (by decide), body.not_ended,
        untilWord.not_end (by decide), test.not_ended]
  | .assign target sign value => by
      simp [Statement.tokens, target.not_end (by decide),
        sign.not_end (by decide), value.not_ended]
  | .read readWord target => by
      simp [Statement.tokens, readWord.not_end (by decide),
        target.not_end (by decide)]
  | .write writeWord value => by
      simp [Statement.tokens, writeWord.not_end (by decide), value.not_ended]

theorem Sequence.not_ended : ∀ sequence : Sequence, ¬ Ended sequence.tokens
  | .mk first rest => by
      simp [Sequence.tokens, first.not_ended, rest.not_ended]

theorem Statements.not_ended :
    ∀ statements : Statements, ¬ Ended statements.tokens
  | .nil => not_ended_nil
  | .cons semicolon next rest => by
      simp [Statements.tokens, semicolon.not_end (by decide), next.not_ended,
        rest.not_ended]

end

end TinyCompiler.Grammar

namespace TinyCompiler.Parser

open Grammar

section Ends

variable {token : Token} {tokens more : List Token}

theorem programTokens_append (hopen : ¬ Ended tokens) (more : List Token) :
    programTokens (tokens ++ more) = tokens ++ programTokens more := by
  refine List.takeWhile_append_of_pos ?_
  intro other hmem
  exact decide_eq_true fun hother => hopen ⟨other, hmem, hother⟩

/-- The program ends at the first end of input. -/
theorem programTokens_end (hopen : ¬ Ended tokens)
    (hend : token.kind = .endOfInput) :
    programTokens (tokens ++ token :: more) = tokens := by
  rw [programTokens_append hopen, programTokens_cons, if_pos hend,
    List.append_nil]

/-- Behind the program of tokens that come to an end of input stands the first
one. -/
theorem Ended.split (hended : Ended tokens) :
    ∃ last rest, tokens = programTokens tokens ++ last :: rest ∧
      last.kind = .endOfInput := by
  induction tokens with
  | nil => exact absurd hended not_ended_nil
  | cons token tokens ih =>
      rw [programTokens_cons]
      by_cases hend : token.kind = .endOfInput
      · exact ⟨token, tokens, by rw [if_pos hend]; rfl, hend⟩
      · obtain ⟨last, rest, htokens, hlast⟩ := ih (hended.tail hend)
        exact ⟨last, rest,
          by rw [if_neg hend, List.cons_append, ← htokens], hlast⟩

end Ends

/-! ## Parsing -/

section Parsing

variable {file : String} {tokens : List Token}

/-- The tokens of a program are parsed to the tree of its derivation. -/
theorem parse_of_derivation (sequence : Sequence)
    (htokens : sequence.tokens = programTokens tokens)
    (hreadable : Readable sequence.tokens) :
    parse tokens file = .ok sequence.tree := by
  obtain ⟨last, rest, hsplit, hlast⟩ := (terminatedTokens_ended tokens).split
  rw [programTokens_terminatedTokens, ← htokens] at hsplit
  unfold parse run
  rw [start_standard, hsplit, program_before sequence hreadable hlast]
  rfl

theorem parse_cases (tokens : List Token) (file : String) :
    (∃ diagnostic, parse tokens file = .error (.rejected diagnostic)) ∨
      ∃ sequence : Sequence, sequence.tokens = programTokens tokens ∧
        Readable sequence.tokens ∧ parse tokens file = .ok sequence.tree := by
  rcases program_cases file (terminatedTokens_ended tokens) with
    hoffends | ⟨sequence, last, rest, hsplit, hlast, hreadable⟩
  · obtain ⟨diagnostic, parser, hrejected⟩ := hoffends.rejected
    refine .inl ⟨diagnostic, ?_⟩
    unfold parse run
    rw [start_standard, hrejected]
    rfl
  · have htokens : sequence.tokens = programTokens tokens := by
      rw [← programTokens_terminatedTokens, hsplit,
        programTokens_end sequence.not_ended hlast]
    exact .inr ⟨sequence, htokens, hreadable,
      parse_of_derivation sequence htokens hreadable⟩

theorem derivation_of_parse {tree : Tree}
    (hparse : parse tokens file = .ok tree) :
    ∃ sequence : Sequence, sequence.tokens = programTokens tokens ∧
      Readable sequence.tokens ∧ tree = sequence.tree := by
  rcases parse_cases tokens file with
    ⟨diagnostic, hrejected⟩ | ⟨sequence, htokens, hreadable, hsequence⟩
  · rw [hparse] at hrejected
    cases hrejected
  · rw [hparse] at hsequence
    exact ⟨sequence, htokens, hreadable, Except.ok.inj hsequence⟩

/-- Parsing accepts the tokens that are derived as a program before the first
end of input and have readable numbers.  They have one derivation, and the
program in the tree is the one that it denotes. -/
theorem parse_accepts_grammar (tokens : List Token) (file : String) :
    ((∃ tree, parse tokens file = .ok tree) ↔
      ∃ sequence : Sequence, sequence.tokens = programTokens tokens ∧
        Readable sequence.tokens) ∧
    ∀ tree, parse tokens file = .ok tree →
      ∃ sequence : Sequence, sequence.tokens = programTokens tokens ∧
        (∀ other : Sequence,
          other.tokens = programTokens tokens → other = sequence) ∧
        ∃ program, tree.program = .ok program ∧
          program.mapNote Mark.line = sequence.block := by
  refine ⟨⟨?_, ?_⟩, ?_⟩
  · rintro ⟨tree, hparse⟩
    obtain ⟨sequence, htokens, hreadable, -⟩ := derivation_of_parse hparse
    exact ⟨sequence, htokens, hreadable⟩
  · rintro ⟨sequence, htokens, hreadable⟩
    exact ⟨sequence.tree, parse_of_derivation sequence htokens hreadable⟩
  · intro tree hparse
    obtain ⟨sequence, htokens, -, rfl⟩ := derivation_of_parse hparse
    refine ⟨sequence, htokens, ?_, sequence.program_tree⟩
    intro other hother
    exact Sequence.eq_of_tokens_eq (hother.trans htokens.symm)

def writeSeven : List Token :=
  [⟨.writeWord, "write", 1⟩, ⟨.number, "7", 2⟩]

def sevenTerm : Term :=
  .mk (.number ⟨⟨.number, "7", 2⟩, by decide⟩) .nil

def writeSevenSequence : Sequence :=
  .mk (.write ⟨⟨.writeWord, "write", 1⟩, by decide⟩
    (.mk (.mk sevenTerm .nil) .none)) .nil

theorem parse_accepts_write :
    ∃ tree, parse writeSeven "sample" = .ok tree ∧
      ∃ program, tree.program = .ok program ∧
        program.mapNote Mark.line = .cons (.write 1 (.const 2 7)) .nil := by
  have hreadable : Readable writeSevenSequence.tokens := by
    simp [writeSevenSequence, sevenTerm, Sequence.tokens, Statement.tokens,
      Exp.tokens, SimpleExp.tokens, Term.tokens, Factor.tokens, Factors.tokens,
      Terms.tokens, Comparison.tokens,
      Statements.tokens]
    exact ⟨7, rfl⟩
  have haccepts := parse_accepts_grammar writeSeven "sample"
  obtain ⟨tree, hparse⟩ := haccepts.1.mpr ⟨writeSevenSequence, rfl, hreadable⟩
  obtain ⟨other, -, hunique, program, hprogram, hlines⟩ :=
    haccepts.2 tree hparse
  obtain rfl := hunique writeSevenSequence rfl
  exact ⟨tree, hparse, program, hprogram, hlines⟩

end Parsing

end TinyCompiler.Parser
