import TinyCompiler.Proofs.ParserCorrectness

/-!
# The first offending token

A rejected text is blamed on the first token that no program has behind the
tokens before it.  Those tokens are the beginning of a program, since the parser
has read them as parts of one.  With the blamed token they are not: the parser
is at that token when it stops, and stops there whatever stands behind it.
-/

namespace TinyCompiler.Parser

open Grammar

variable {file : String} {tokens front rest more : List Token} {token : Token}

/-- Some tokens that are parsed begin with these. -/
def Viable (file : String) (front : List Token) : Prop :=
  ∃ more tree, parse (front ++ more) file = .ok tree

/-! ## Tokens that are read -/

theorem programTokens_of_not_ended (hopen : ¬ Ended tokens) :
    programTokens tokens = tokens := by
  simpa [programTokens] using programTokens_append hopen []

theorem Derived.not_ended (hderived : Derived Sequence.tokens tokens) :
    ¬ Ended tokens := by
  obtain ⟨sequence, rfl, -⟩ := hderived
  exact sequence.not_ended

theorem Derived.viable (hderived : Derived Sequence.tokens (front ++ more)) :
    Viable file front := by
  have hprogram := programTokens_of_not_ended hderived.not_ended
  obtain ⟨sequence, htokens, hreadable⟩ := hderived
  rw [htokens] at hprogram hreadable
  refine ⟨more, sequence.tree, ?_⟩
  rw [htokens]
  exact parse_of_derivation sequence hprogram.symm hreadable

theorem terminatedTokens_concat (front : List Token)
    (hend : token.kind = .endOfInput) :
    terminatedTokens (front ++ [token]) = front ++ [token] := by
  induction front with
  | nil => simp [terminatedTokens, terminated, hend]
  | cons first front ih =>
      cases front <;>
        simpa [terminatedTokens_cons_cons] using ih

theorem terminatedTokens_append_cons (front more : List Token) (token : Token) :
    ∃ rest, terminatedTokens (front ++ token :: more) =
      front ++ token :: rest := by
  induction front with
  | nil =>
      cases more with
      | nil =>
          by_cases hend : token.kind = .endOfInput <;>
            simp [terminatedTokens, terminated, hend]
      | cons next more => exact ⟨_, terminatedTokens_cons_cons token next more⟩
  | cons first front ih =>
      obtain ⟨rest, hrest⟩ := ih
      refine ⟨rest, ?_⟩
      cases front <;>
        simpa [terminatedTokens_cons_cons] using hrest

/-! ## The blamed token -/

section Blamed

variable {after : Parser} {tree : Tree} {diagnostic : Diagnostic}
  {other : String}

theorem before_facing (file : String) (tree : Tree) (front : List Token)
    (token : Token) (rest others : List Token) :
    (before file tree (front ++ token :: rest)).facing
    ((front ++ [token]).tail ++ others) =
      before file tree (front ++ token :: others) := by
  cases front <;> simp [before, facing]

/-- A program that is rejected at a token with others behind it is rejected
there with any others. -/
theorem program_rejected_again
    (hrejected : program (before file Tree.empty (front ++ token :: rest)) =
      .error (.rejected diagnostic) (before other tree (token :: rest)))
    (hrest : rest ≠ []) (others : List Token) {depth : Nat}
    (hdepth : 32 * (front ++ token :: rest).length ≤ depth) :
    programWithin depth (before file Tree.empty (front ++ token :: others)) =
      .error (.rejected diagnostic) (before other tree (token :: others)) := by
  rw [program_eq_programWithin, depth_before (by simp)] at hrejected
  rw [← before_facing file Tree.empty front token rest others]
  exact programWithin_rejected hdepth hrejected
    (by cases front <;> simp [before]) hrest others

theorem not_viable_of_rejected
    (hrejected : program (before file Tree.empty (front ++ token :: rest)) =
      .error (.rejected diagnostic) (before other tree (token :: rest)))
    (hrest : rest ≠ []) : ¬ Viable file (front ++ [token]) := by
  rintro ⟨more, accepted, hparse⟩
  rw [List.append_assoc, List.singleton_append] at hparse
  obtain ⟨sequence, htokens, hreadable, -⟩ := derivation_of_parse hparse
  obtain ⟨others, hothers⟩ := terminatedTokens_append_cons front more token
  obtain ⟨last, behind, hsplit, hlast⟩ :=
    (terminatedTokens_ended (front ++ token :: more)).split
  rw [programTokens_terminatedTokens, ← htokens, hothers] at hsplit
  -- Either of the two texts may be the longer one, and needs more depth then.
  obtain ⟨depth, hfirst, hsecond⟩ : ∃ depth,
      32 * (front ++ token :: rest).length ≤ depth ∧
      32 * (front ++ token :: others).length ≤ depth :=
    ⟨_, Nat.le_max_left _ _, Nat.le_max_right _ _⟩
  have hagain := program_rejected_again hrejected hrest others hfirst
  have henough : Enough depth 3 (front ++ token :: others) := by
    unfold Enough
    omega
  rw [hsplit] at hagain henough
  rw [programWithin_before sequence hreadable hlast henough] at hagain
  cases hagain

/-- A program that is not one at its end of input is not one with more tokens
behind. -/
theorem not_viable_of_end (hopen : ¬ Ended front)
    (hend : token.kind = .endOfInput)
    (htokens : terminatedTokens tokens = front ++ token :: rest) {stop : Stop}
    (hparse : parse tokens file = .error stop) :
    ¬ Viable file (front ++ [token]) := by
  rintro ⟨more, accepted, haccepted⟩
  rw [List.append_assoc, List.singleton_append] at haccepted
  obtain ⟨sequence, hsequence, hreadable, -⟩ := derivation_of_parse haccepted
  have hprogram : programTokens tokens = front := by
    rw [← programTokens_terminatedTokens, htokens, programTokens_end hopen hend]
  rw [programTokens_end hopen hend, ← hprogram] at hsequence
  rw [parse_of_derivation sequence hsequence hreadable] at hparse
  cases hparse

end Blamed

/-- A text that is not parsed is blamed on a token with the beginning of a
program before it, which the token does not continue. -/
theorem rejected_at_offender {stop : Stop}
    (hparse : parse tokens file = .error stop) :
    ∃ diagnostic front token rest, stop = .rejected diagnostic ∧
      terminatedTokens tokens = front ++ token :: rest ∧
        diagnostic.Blames token ∧
      Viable file front ∧ ¬ Viable file (front ++ [token]) := by
  have hended := terminatedTokens_ended tokens
  rcases program_cases file hended with
    hoffends | ⟨sequence, last, rest, hsplit, hlast, hreadable⟩
  swap
  · have hprogram : sequence.tokens = programTokens tokens := by
      rw [← programTokens_terminatedTokens, hsplit,
        programTokens_end sequence.not_ended hlast]
    rw [parse_of_derivation sequence hprogram hreadable] at hparse
    cases hparse
  obtain ⟨front, completion, behind, htokens, hderived, other, tree, token,
    rest, diagnostic, rfl, hblames, hrejected⟩ := hoffends
  have hopen : ¬ Ended front :=
    fun hfront => hderived.not_ended (ended_append.mpr (.inl hfront))
  refine ⟨diagnostic, front, token, rest, ?_, htokens, hblames,
    hderived.viable, ?_⟩
  · unfold parse run at hparse
    rw [start_standard, hrejected] at hparse
    exact (Except.error.inj hparse).symm
  · by_cases hend : token.kind = .endOfInput
    · exact not_viable_of_end hopen hend htokens hparse
    · rw [htokens] at hrejected hended
      have hrest : Ended rest := by simpa [hopen, hend] using hended
      exact not_viable_of_rejected hrejected hrest.ne_nil

/-- A text that is not parsed is rejected with the line and the text of a token
of it.  Some programs begin with the tokens before that one, and none begins
with these and that one. -/
theorem parse_blames_first_offender {stop : Stop}
    (hparse : parse tokens file = .error stop) :
    ∃ diagnostic index token, stop = .rejected diagnostic ∧
      (terminatedTokens tokens)[index]? = some token ∧ diagnostic.Blames token ∧
      Viable file ((terminatedTokens tokens).take index) ∧
      ¬ Viable file ((terminatedTokens tokens).take (index + 1)) := by
  obtain ⟨diagnostic, front, token, rest, hstop, htokens, hblames,
      hviable, hnot⟩ :=
    rejected_at_offender hparse
  have hblamed : (terminatedTokens tokens).take (front.length + 1) =
      front ++ [token] := by
    rw [htokens, List.append_cons, List.take_left' (by simp)]
  refine ⟨diagnostic, front.length, token, hstop,
    by simp [htokens], hblames, ?_, ?_⟩
  · rwa [htokens, List.take_left]
  · rwa [hblamed]

/-- A text with a comparison as the operand of another one. -/
def chainedComparison : List Token :=
  [⟨.writeWord, "write", 1⟩, ⟨.number, "1", 2⟩, ⟨.less, "<", 3⟩,
    ⟨.number, "2", 4⟩, ⟨.equals, "=", 5⟩, ⟨.number, "3", 6⟩]

theorem chainedComparison_blamed :
    parse chainedComparison "sample" = .error (.rejected
        ⟨.unexpectedTokenDetailed "=" "comparison operators do not chain",
          5, "sample"⟩) ∧
      Viable "sample" (chainedComparison.take 4) ∧
      ¬ Viable "sample" (chainedComparison.take 5) := by
  have hparse : parse chainedComparison "sample" = .error (.rejected
      ⟨.unexpectedTokenDetailed "=" "comparison operators do not chain", 5,
        "sample"⟩) := by
    rfl
  obtain ⟨diagnostic, index, token, hstop, htoken, ⟨hline, -⟩, hviable, hnot⟩ :=
    parse_blames_first_offender hparse
  obtain rfl := Stop.rejected.inj hstop
  have hlines : ∀ index < 7,
      ((terminatedTokens chainedComparison)[index]?).map Token.line = some 5 →
        index = 4 := by
    decide
  have hbound : index < 7 := (List.getElem?_eq_some_iff.mp htoken).1
  obtain rfl := hlines index hbound (by rw [htoken, Option.map_some, ← hline])
  exact ⟨hparse, hviable, hnot⟩

end TinyCompiler.Parser
