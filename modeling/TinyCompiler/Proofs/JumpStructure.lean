import TinyCompiler.Proofs.GeneratedCodeSafety

/-!
# The jumps of generated code

A generator fills in the target of a jump after the code that the jump leads
over has been emitted.  The code it ends with is nevertheless that of the
layout, in which every jump has its target from the beginning: no jump is left
pending, one jump leads back for every `repeat`, and all others lead forward, at
most to the `HALT` behind the code.
-/

namespace TinyCompiler

mutual

/-- How many loops a statement has, those inside of it included. -/
def Stmt.repeats : Stmt α → Nat
  | .read _ _ | .assign _ _ _ | .write _ _ => 0
  | .ifThen _ _ thenPart => thenPart.repeats
  | .ifElse _ _ thenPart elsePart => thenPart.repeats + elsePart.repeats
  | .repeatUntil _ body _ => body.repeats + 1

def Block.repeats : Block α → Nat
  | .nil => 0
  | .cons first rest => first.repeats + rest.repeats

end

/-- The jumps of the code at an address: where each of them stands and leads
to. -/
def jumpsFrom (base : Nat) (code : List Instruction) : List (Nat × Nat) :=
  (code.zipIdx base).flatMap fun entry => entry.1.targets.map fun target =>
    (entry.2, target)

@[simp] theorem jumpsFrom_nil (base : Nat) : jumpsFrom base [] = [] := rfl

@[simp] theorem jumpsFrom_append (base : Nat)
    (first second : List Instruction) :
    jumpsFrom base (first ++ second) =
      jumpsFrom base first ++ jumpsFrom (base + first.length) second := by
  simp [jumpsFrom, List.zipIdx_append]

@[simp] theorem jumpsFrom_cons (base : Nat) (instruction : Instruction)
    (code : List Instruction) :
    jumpsFrom base (instruction :: code) =
      instruction.targets.map (fun target => (base, target)) ++
        jumpsFrom (base + 1) code := by
  simp [jumpsFrom]

theorem target_of_mem_jumpsFrom {base : Nat} {code : List Instruction}
    {jump : Nat × Nat} (hjump : jump ∈ jumpsFrom base code) :
    ∃ instruction ∈ code, jump.2 ∈ instruction.targets := by
  obtain ⟨entry, hentry, hmem⟩ := List.mem_flatMap.mp hjump
  obtain ⟨target, htarget, rfl⟩ := List.mem_map.mp hmem
  exact ⟨entry.1, List.fst_mem_of_mem_zipIdx hentry, htarget⟩

/-- A jump that leads to an address before its own. -/
def isBackward (jump : Nat × Nat) : Bool :=
  jump.2 < jump.1

/-- Code without a `HALT` and without a jump to itself, in which so many jumps
lead back. -/
structure JumpsLaid (base : Nat) (code : List Instruction)
    (backward : Nat) : Prop where
  halt_not_mem : .halt ∉ code
  count : (jumpsFrom base code).countP isBackward = backward
  moves : ∀ jump ∈ jumpsFrom base code, jump.1 ≠ jump.2

section JumpsLaid

variable {base backward otherBackward : Nat} {first second : List Instruction}

theorem JumpsLaid.append (hfirst : JumpsLaid base first backward)
    (hsecond : JumpsLaid (base + first.length) second otherBackward) :
    JumpsLaid base (first ++ second) (backward + otherBackward) := by
  constructor
  · simp [hfirst.halt_not_mem, hsecond.halt_not_mem]
  · rw [jumpsFrom_append, List.countP_append, hfirst.count, hsecond.count]
  · rw [jumpsFrom_append]
    exact List.forall_mem_append.mpr ⟨hfirst.moves, hsecond.moves⟩

theorem jumpsLaid_of_straight (base : Nat)
    (hstraight : ∀ instruction ∈ first,
      instruction.targets = [] ∧ instruction ≠ .halt) :
    JumpsLaid base first 0 := by
  have hnone : jumpsFrom base first = [] := by
    refine List.flatMap_eq_nil_iff.mpr fun entry hentry => ?_
    rw [(hstraight entry.1 (List.fst_mem_of_mem_zipIdx hentry)).1, List.map_nil]
  constructor
  · exact fun hmem => (hstraight .halt hmem).2 rfl
  · rw [hnone]
    rfl
  · simp [hnone]

theorem jumpsLaid_forward {instruction : Instruction} {target : Nat}
    (htargets : instruction.targets = [target]) (hhalt : instruction ≠ .halt)
    (hforward : base < target) : JumpsLaid base [instruction] 0 := by
  constructor
  · simpa using hhalt.symm
  · simp [htargets, isBackward]
    omega
  · simp [htargets]
    omega

theorem jumpsLaid_backward {instruction : Instruction} {target : Nat}
    (htargets : instruction.targets = [target]) (hhalt : instruction ≠ .halt)
    (hbackward : target < base) : JumpsLaid base [instruction] 1 := by
  constructor
  · simpa using hhalt.symm
  · simp [htargets, isBackward, hbackward]
  · simp [htargets]
    omega

end JumpsLaid

/-! ## The jumps of the layout -/

theorem Expr.operandCode_straight {code : List Instruction} (expr : Expr α)
    (scratch : Nat)
    (hcode : ∀ instruction ∈ code,
      instruction.targets = [] ∧ instruction ≠ .halt) :
    ∀ instruction ∈ expr.operandCode code scratch,
      instruction.targets = [] ∧ instruction ≠ .halt := by
  cases expr with
  | const note value => simp [Expr.operandCode]
  | var note name => simp [Expr.operandCode]
  | op note operator left right =>
      simpa [Expr.operandCode, Instruction.targets, or_imp,
        forall_and] using hcode

theorem Expr.code_straight (locate : String → Nat) (expr : Expr α)
    (scratch : Nat) :
    ∀ instruction ∈ expr.code locate scratch,
      instruction.targets = [] ∧ instruction ≠ .halt := by
  induction expr generalizing scratch with
  | const note value => simp [Expr.code, Instruction.targets]
  | var note name => simp [Expr.code, Instruction.targets]
  | op note operator left right ihLeft ihRight =>
      have hoperand :=
        right.operandCode_straight scratch (ihRight (scratch + 1))
      rw [Expr.code]
      refine List.forall_mem_append.mpr
        ⟨ihLeft scratch, List.forall_mem_append.mpr
        ⟨hoperand, ?_⟩⟩
      simp [Instruction.targets]

theorem Expr.jumpsLaid (locate : String → Nat) (expr : Expr α)
    (scratch base : Nat) :
    JumpsLaid base (expr.code locate scratch) 0 :=
  jumpsLaid_of_straight base (expr.code_straight locate scratch)

theorem Expr.code_ne_nil (locate : String → Nat) (expr : Expr α)
    (scratch : Nat) :
    expr.code locate scratch ≠ [] := by
  cases expr <;> simp [code]

theorem branchCode_jumpsLaid {base backward : Nat}
    {testCode thenCode : List Instruction} (htest : JumpsLaid base testCode 0)
    (hthen : JumpsLaid (base + testCode.length + 1) thenCode backward) :
    JumpsLaid base (branchCode base testCode thenCode) backward := by
  have hjump : JumpsLaid (base + testCode.length)
      [.jumpIfZero (base + testCode.length + 1 + thenCode.length)] 0 :=
    jumpsLaid_forward rfl (by simp) (by omega)
  have hcode := htest.append (hjump.append hthen)
  rwa [Nat.zero_add, Nat.zero_add] at hcode

theorem choiceCode_jumpsLaid {base backward otherBackward : Nat}
    {testCode thenCode elseCode : List Instruction}
    (htest : JumpsLaid base testCode 0)
    (hthen : JumpsLaid (base + testCode.length + 1) thenCode backward)
    (helse : JumpsLaid
      (base + testCode.length + 1 + thenCode.length + 1) elseCode
      otherBackward) :
    JumpsLaid base (choiceCode base testCode thenCode elseCode)
      (backward + otherBackward) := by
  have hskipThen : JumpsLaid (base + testCode.length)
      [.jumpIfZero (base + testCode.length + 1 + thenCode.length + 1)] 0 :=
    jumpsLaid_forward rfl (by simp) (by omega)
  have hskipElse : JumpsLaid (base + testCode.length + 1 + thenCode.length)
      [.jump (base + testCode.length + 1 + thenCode.length + 1 +
        elseCode.length)] 0 :=
    jumpsLaid_forward rfl (by simp) (by omega)
  have hcode :=
    htest.append (hskipThen.append (hthen.append (hskipElse.append helse)))
  rwa [Nat.zero_add, Nat.zero_add, Nat.zero_add] at hcode

section Layout

variable (locate : String → Nat) (scratch : Nat)

mutual

theorem Stmt.jumpsLaid : ∀ (stmt : Stmt α) (base : Nat),
    JumpsLaid base (stmt.code locate scratch base) stmt.repeats
  | .read note name, base =>
      jumpsLaid_of_straight base (by simp [Stmt.code, Instruction.targets])
  | .assign note name value, base =>
      (value.jumpsLaid locate scratch base).append
        (jumpsLaid_of_straight _ (by simp [Instruction.targets]))
  | .write note value, base =>
      (value.jumpsLaid locate scratch base).append
        (jumpsLaid_of_straight _ (by simp [Instruction.targets]))
  | .ifThen note test thenPart, base =>
      branchCode_jumpsLaid (test.jumpsLaid locate scratch base)
        (Block.jumpsLaid thenPart _)
  | .ifElse note test thenPart elsePart, base =>
      choiceCode_jumpsLaid (test.jumpsLaid locate scratch base)
        (Block.jumpsLaid thenPart _)
        (Block.jumpsLaid elsePart _)
  | .repeatUntil note body test, base => by
      have hbody := Block.jumpsLaid body base
      have htest := test.jumpsLaid locate scratch
        (base + (body.code locate scratch base).length)
      have hpositive :=
        List.length_pos_iff.mpr (test.code_ne_nil locate scratch)
      have hjump : JumpsLaid (base + (body.code locate scratch base).length +
          (test.code locate scratch).length) [.jumpIfZero base] 1 :=
        jumpsLaid_backward rfl (by simp) (by omega)
      have hcode := hbody.append (htest.append hjump)
      rwa [Nat.zero_add] at hcode

theorem Block.jumpsLaid : ∀ (block : Block α) (base : Nat),
    JumpsLaid base (block.code locate scratch base) block.repeats
  | .nil, base => jumpsLaid_of_straight base (by simp [Block.code])
  | .cons first rest, base =>
      (Stmt.jumpsLaid first base).append (Block.jumpsLaid rest _)

end

end Layout

/-! ## Generated programs -/

/-- The code of a generated program is the layout of the program in the tree,
and no jump was left pending.  Its only `HALT` is the last instruction; one jump
leads back for each loop, and all others lead forward, at most to the `HALT`. -/
theorem generated_code_laid_out (tree : Tree) (symbols : SymbolTable)
    (program : Program) (hgenerate : generate tree symbols = .ok program) :
    ∃ block body, tree.program = .ok block ∧
      body = block.code symbols.locate symbols.size 0 ∧
      program.code.toList = body ++ [.halt] ∧ .halt ∉ body ∧
      (∃ generator,
        Generator.lowerProgram tree (.start symbols) = .ok program generator ∧
        generator.pending = []) ∧
      (program.size ≤ Generator.placeholder →
        ∀ instruction ∈ program.code.toList,
        Generator.placeholder ∉ instruction.targets) ∧
      (jumpsFrom 0 program.code.toList).countP isBackward = block.repeats ∧
      ∀ jump ∈ jumpsFrom 0 program.code.toList, isBackward jump = false →
        jump.1 < jump.2 ∧ jump.2 ≤ body.length := by
  obtain ⟨block, hblock, hfaults, rfl⟩ := generate_eq_ok hgenerate
  have hlaid := block.jumpsLaid symbols.locate symbols.size 0
  have htargets := block.targetsWithin symbols.locate symbols.size 0
  have hmeets := Generator.lowerProgram_meets tree symbols
  rw [Tree.faults_of_program hblock, hfaults] at hmeets
  obtain ⟨result, generator, hrun, other, hother, rfl, hpending⟩ := hmeets
  obtain rfl := Except.ok.inj (hblock.symm.trans hother)
  have hjumps : jumpsFrom 0 (Program.ofBlock symbols block).code.toList =
      jumpsFrom 0 (block.code symbols.locate symbols.size 0) := by
    simp [Program.ofBlock, Instruction.targets]
  have hwithin :
      ∀ jump ∈ jumpsFrom 0 (block.code symbols.locate symbols.size 0),
      jump.2 ≤ (block.code symbols.locate symbols.size 0).length := by
    intro jump hjump
    obtain ⟨instruction, hmem, htarget⟩ := target_of_mem_jumpsFrom hjump
    have hhigh := (htargets instruction hmem jump.2 htarget).2
    rwa [Nat.zero_add] at hhigh
  refine ⟨block, _, hblock, rfl, rfl, hlaid.halt_not_mem,
    ⟨generator, hrun, hpending⟩, ?_, ?_, ?_⟩
  · intro hsize instruction hmem hplaceholder
    rcases List.mem_append.mp hmem with hbody | hend
    · have hhigh := (htargets instruction hbody _ hplaceholder).2
      simp only [Program.size, Program.ofBlock, List.size_toArray,
        List.length_append, List.length_singleton] at hsize
      omega
    · obtain rfl := List.mem_singleton.mp hend
      simp [Instruction.targets] at hplaceholder
  · rw [hjumps, hlaid.count]
  · rw [hjumps]
    intro jump hjump hforward
    have hmoves := hlaid.moves jump hjump
    have hnot : ¬ jump.2 < jump.1 := of_decide_eq_false hforward
    exact ⟨by omega, hwithin jump hjump⟩

/-- A loop around a branch, each part of which is a single output. -/
def branchLoop : Tree where
  nodes := #[⟨.const 1, 1, none, .integer⟩, ⟨.op .less 0 0, 1, none, .boolean⟩,
    .fresh 2 (.write 0), .fresh 2 (.ifElse 1 2 (some 2)),
      .fresh 3 (.repeatUntil 3 1)]
  root := some 4

theorem generated_loop_laid_out :
    ∃ program, generate branchLoop .empty = .ok program ∧
      jumpsFrom 0 program.code.toList = [(2, 6), (5, 8), (10, 0)] ∧
      (∃ body, program.code.toList = body ++ [.halt] ∧ .halt ∉ body ∧
        body.length = 11) ∧
      (jumpsFrom 0 program.code.toList).countP isBackward = 1 := by
  have hprogram : branchLoop.program = .ok _ := rfl
  have hgenerate := generate_eq hprogram .empty
  rw [(Block.faults_eq_nil_iff _ _).mpr (by
    simp [Analyzed, Block.exprNotes, Block.names, Stmt.exprNotes,
      Stmt.names, Expr.notes, Expr.names, Node.mark, branchLoop])] at hgenerate
  obtain ⟨block, body, hblock, hbody, hcode, hhalt, -, -, hcount, -⟩ :=
    generated_code_laid_out _ _ _ hgenerate
  obtain rfl := Except.ok.inj (hprogram.symm.trans hblock)
  exact ⟨_, hgenerate, rfl, ⟨body, hcode, hhalt, by rw [hbody]; rfl⟩, hcount⟩

end TinyCompiler
