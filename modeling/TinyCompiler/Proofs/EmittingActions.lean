import TinyCompiler.Proofs.CodeLayout
import TinyCompiler.Proofs.LoweringFaults

/-!
# Actions that emit code

What the actions of the generator do is said in two parts.  An action fails with
the first of its faults, and where it has none it appends code, leaves jumps in
that code that wait for a target, and needs scratch cells up to a depth.  Both
parts of a sequence of actions are put together from those of the actions.
-/

namespace TinyCompiler

namespace Generator

/-! ## Actions with faults -/

/-- The action fails with the first of the faults; without a fault it ends in a
state that satisfies `post`. -/
def Meets (action : Action α) (before : Generator)
    (faults : List GenerationError) (post : α → Generator → Prop) : Prop :=
  match faults with
  | [] => ∃ value after, action before = .ok value after ∧ post value after
  | fault :: _ => ∃ after, action before = .error fault after

section Meets

variable {action : Action α} {before : Generator}
  {faults nextFaults : List GenerationError} {post : α → Generator → Prop}
  {next : α → Action β} {nextPost : β → Generator → Prop}

theorem Meets.bind (haction : Meets action before faults post)
    (hnext : ∀ value after,
      post value after → Meets (next value) after nextFaults nextPost) :
    Meets (action >>= next) before (faults ++ nextFaults) nextPost := by
  cases faults with
  | cons fault rest =>
      obtain ⟨after, hrun⟩ := haction
      exact ⟨after, bind_apply_of_error hrun next⟩
  | nil =>
      obtain ⟨value, after, hrun, hpost⟩ := haction
      have hstep := hnext value after hpost
      cases nextFaults with
      | cons fault rest =>
          obtain ⟨final, hfinal⟩ := hstep
          exact ⟨final, (bind_apply_of_ok hrun next).trans hfinal⟩
      | nil =>
          obtain ⟨result, final, hfinal, hresult⟩ := hstep
          exact ⟨result, final,
            (bind_apply_of_ok hrun next).trans hfinal, hresult⟩

/-- What an action leaves counts only where it meets no fault. -/
theorem Meets.imp_of_nil {other : α → Generator → Prop}
    (haction : Meets action before faults post)
    (himp : faults = [] → ∀ value after, post value after → other value after) :
    Meets action before faults other := by
  cases faults with
  | cons fault rest => exact haction
  | nil =>
      obtain ⟨value, after, hrun, hpost⟩ := haction
      exact ⟨value, after, hrun, himp rfl value after hpost⟩

theorem Meets.imp {weaker : α → Generator → Prop}
    (haction : Meets action before faults post)
    (himp : ∀ value after, post value after → weaker value after) :
    Meets action before faults weaker :=
  haction.imp_of_nil fun _ => himp

/-- An action that has succeeded met no fault and left what it promises. -/
theorem Meets.of_ok {value : α} {after : Generator}
    (haction : Meets action before faults post)
    (hrun : action before = .ok value after) :
    faults = [] ∧ post value after := by
  cases faults with
  | cons fault rest =>
      obtain ⟨failed, hfailed⟩ := haction
      rw [hrun] at hfailed
      cases hfailed
  | nil =>
      obtain ⟨result, final, hfinal, hpost⟩ := haction
      rw [hrun] at hfinal
      cases hfinal
      exact ⟨rfl, hpost⟩

/-- An action that has failed met a fault, and no other before it. -/
theorem Meets.head?_of_error {error : GenerationError} {after : Generator}
    (haction : Meets action before faults post)
    (herror : action before = .error error after) :
    faults.head? = some error := by
  cases faults with
  | nil =>
      obtain ⟨value, final, hrun, -⟩ := haction
      rw [herror] at hrun
      cases hrun
  | cons fault rest =>
      obtain ⟨failed, hfailed⟩ := haction
      rw [herror] at hfailed
      cases hfailed
      rfl

theorem Meets.error_of_head? {error : GenerationError}
    (haction : Meets action before faults post)
    (hfaults : faults.head? = some error) :
    ∃ after, action before = .error error after := by
  obtain ⟨rest, rfl⟩ := List.head?_eq_some_iff.mp hfaults
  exact haction

theorem Meets.bind_last (haction : Meets action before faults post)
    (hnext : ∀ value after,
      post value after → Meets (next value) after [] nextPost) :
    Meets (action >>= next) before faults nextPost := by
  rw [← List.append_nil faults]
  exact haction.bind hnext

theorem Meets.bind_first (haction : Meets action before [] post)
    (hnext : ∀ value after,
      post value after → Meets (next value) after nextFaults nextPost) :
    Meets (action >>= next) before nextFaults nextPost :=
  haction.bind hnext

theorem meets_pure {value : α} (hpost : post value before) :
    Meets (pure value) before [] post :=
  ⟨value, before, rfl, hpost⟩

theorem meets_get_bind {next : Generator → Action β}
    (hnext : Meets (next before) before nextFaults nextPost) :
    Meets (get >>= next) before nextFaults nextPost := hnext

end Meets

/-! ## The elementary actions -/

/-- Code has been appended, jumps at the addresses `opened` among it wait for a
target, and scratch cells have been in use up to a depth. -/
structure Emits (before after : Generator) (code : List Instruction)
    (opened : List Nat) (peak : Nat) : Prop where
  symbols : after.symbols = before.symbols
  code : after.code.toList = before.code.toList ++ code
  pending : after.pending = opened ++ before.pending
  scratchDepth : after.scratchDepth = before.scratchDepth
  peakDepth : after.peakDepth = max before.peakDepth peak

theorem Emits.refl (generator : Generator) :
    Emits generator generator [] [] 0 where
  symbols := rfl
  code := by simp
  pending := rfl
  scratchDepth := rfl
  peakDepth := by simp

theorem Emits.trans {before middle after : Generator}
    {first second : List Instruction} {firstOpened secondOpened : List Nat}
    {firstPeak secondPeak : Nat}
    (hfirst : Emits before middle first firstOpened firstPeak)
    (hsecond : Emits middle after second secondOpened secondPeak) :
    Emits before after (first ++ second) (secondOpened ++ firstOpened)
      (max firstPeak secondPeak) where
  symbols := by rw [hsecond.symbols, hfirst.symbols]
  code := by rw [hsecond.code, hfirst.code, List.append_assoc]
  pending := by rw [hsecond.pending, hfirst.pending, List.append_assoc]
  scratchDepth := by rw [hsecond.scratchDepth, hfirst.scratchDepth]
  peakDepth := by rw [hsecond.peakDepth, hfirst.peakDepth, Nat.max_assoc]

theorem Emits.nextAddress_eq {before after : Generator}
    {code : List Instruction} {opened : List Nat} {peak : Nat}
    (hemits : Emits before after code opened peak) :
    after.nextAddress = before.nextAddress + code.length := by
  have hlength := congrArg List.length hemits.code
  simpa [nextAddress] using hlength

theorem emit_meets (instruction : Instruction) (before : Generator) :
    Meets (emit instruction) before [] fun _ after =>
      Emits before after [instruction] [] 0 := by
  refine ⟨_, _, rfl, ?_⟩
  constructor <;> simp

theorem emitPending_meets (jump : Nat → Instruction) (before : Generator) :
    Meets (emitPending jump) before [] fun address after =>
      address = before.nextAddress ∧
        Emits before after [jump placeholder] [before.nextAddress] 0 := by
  refine ⟨_, _, rfl, rfl, ?_⟩
  constructor <;> simp

theorem demandType_meets (mark : Mark) (before : Generator) :
    Meets mark.demandType before mark.faults fun _ after => after = before := by
  unfold Mark.faults Mark.demandType
  by_cases hvoid : mark.type = .void
  · rw [if_pos hvoid, if_pos hvoid]
    exact ⟨before, rfl⟩
  · rw [if_neg hvoid, if_neg hvoid]
    exact ⟨_, before, rfl, rfl⟩

theorem locationOf_meets (name : String) (line : Nat) (before : Generator) :
    Meets (locationOf name line) before (before.symbols.faults name line)
      fun location after =>
        location = before.symbols.locate name ∧ after = before := by
  unfold SymbolTable.faults locationOf
  apply meets_get_bind
  cases hlocation : before.symbols.location? name with
  | none => exact ⟨before, rfl⟩
  | some location =>
      exact ⟨location, before, rfl,
        (SymbolTable.locate_of_location? hlocation).symm, rfl⟩

theorem modify_append_cons {first rest : List α} {value : α} (change : α → α) :
    (first ++ value :: rest).modify first.length change =
      first ++ change value :: rest := by
  induction first with
  | nil => rfl
  | cons head first ih => simp [ih]

/-- Patching changes the one jump it is asked to change, which no longer
waits. -/
theorem patch_meets {before middle : Generator} {first rest : List Instruction}
    {jump : Instruction} {opened : List Nat} {peak : Nat}
    (hemits : Emits before middle (first ++ jump :: rest) opened peak)
    (hopened : before.nextAddress + first.length ∈ opened) (target : Nat) :
    Meets (patch (before.nextAddress + first.length) target) middle
        [] fun _ after =>
      Emits before after (first ++ jump.retarget target :: rest)
        (opened.erase (before.nextAddress + first.length)) peak := by
  unfold patch
  apply meets_get_bind
  rw [if_pos (by rw [hemits.pending]; exact List.mem_append_left _ hopened)]
  refine ⟨_, _, rfl, ?_⟩
  constructor
  · exact hemits.symbols
  · have haddress : before.nextAddress + first.length =
        (before.code.toList ++ first).length := by
      simp [nextAddress]
    simp only [Array.toList_modify]
    rw [hemits.code, ← List.append_assoc, haddress, modify_append_cons,
      List.append_assoc]
  · simp only
    rw [hemits.pending, List.erase_append_left _ hopened]
  · exact hemits.scratchDepth
  · exact hemits.peakDepth

/-! ## Phrases -/

/-- The action emits code as a whole phrase does: no jump in it waits at the
end. -/
def Lowers (action : Action Unit) (before : Generator)
    (faults : List GenerationError) (code : List Instruction) (peak : Nat) :
    Prop :=
  Meets action before faults fun _ after => Emits before after code [] peak

theorem Lowers.of_eq {action : Action Unit} {before : Generator}
    {faults other : List GenerationError} {code : List Instruction} {peak : Nat}
    (hlowers : Lowers action before faults code peak) (hsame : other = faults) :
    Lowers action before other code peak :=
  hsame ▸ hlowers

/-- The location of the next scratch cell. -/
def nextCell (generator : Generator) : Nat :=
  generator.symbols.size + generator.scratchDepth

/-- The variables and the free scratch cells are the same. -/
def SameFrame (before after : Generator) : Prop :=
  after.symbols = before.symbols ∧ after.scratchDepth = before.scratchDepth

theorem Emits.sameFrame {before after : Generator} {code : List Instruction}
    {opened : List Nat} {peak : Nat}
    (hemits : Emits before after code opened peak) :
    SameFrame before after :=
  ⟨hemits.symbols, hemits.scratchDepth⟩

theorem SameFrame.nextCell_eq {before after : Generator}
    (hframe : SameFrame before after) :
    after.nextCell = before.nextCell := by
  unfold nextCell
  rw [hframe.1, hframe.2]

/-- The generator with the next scratch cell in use. -/
def reserved (generator : Generator) : Generator :=
  { generator with
    scratchDepth := generator.scratchDepth + 1
    peakDepth := max generator.peakDepth (generator.scratchDepth + 1) }

theorem reserveScratch_meets (before : Generator) :
    Meets reserveScratch before [] fun location after =>
      location = before.nextCell ∧ after = before.reserved :=
  ⟨_, _, rfl, rfl, rfl⟩

theorem spill_meets {code : Action Unit} {before : Generator}
    {faults : List GenerationError} {inner : List Instruction} {peak : Nat}
    (hcode : ∀ opened : Generator, opened.symbols = before.symbols →
      opened.scratchDepth = before.scratchDepth + 1 →
        Lowers code opened faults inner peak) :
    Meets (spill code) before faults fun operand after =>
      operand = .memory (before.nextCell + 1) ∧
        Emits before after (.store before.nextCell ::
          (inner ++ [.store (before.nextCell + 1), .load before.nextCell])) []
          (max (before.scratchDepth + 2) peak) := by
  unfold spill
  refine (reserveScratch_meets before).bind_first fun left _ hleft => ?_
  obtain ⟨rfl, rfl⟩ := hleft
  refine (emit_meets _ before.reserved).bind_first fun _ stored hstored => ?_
  refine (hcode stored hstored.symbols hstored.scratchDepth).bind_last
    fun _ computed hcomputed => ?_
  have hinner := hstored.trans hcomputed
  refine (reserveScratch_meets computed).bind_first fun right _ hright => ?_
  obtain ⟨rfl, rfl⟩ := hright
  refine (emit_meets _ computed.reserved).bind_first fun _ kept hkept => ?_
  refine (emit_meets _ kept).bind_first fun _ loaded hloaded => ?_
  have houter := hkept.trans hloaded
  have hcell : computed.nextCell = before.nextCell + 1 := by
    rw [hinner.sameFrame.nextCell_eq]
    rfl
  refine ⟨_, _, rfl, by rw [hcell], ?_⟩
  constructor
  · exact houter.symbols.trans hinner.symbols
  · have hafter : loaded.code.toList = computed.code.toList ++ _ := houter.code
    have hbefore : computed.code.toList = before.code.toList ++ _ := hinner.code
    simp only [hafter, hbefore, hcell]
    simp
  · have hpending : loaded.pending = computed.pending := houter.pending
    exact hpending.trans hinner.pending
  · have hdepth : loaded.scratchDepth = computed.scratchDepth + 1 :=
      houter.scratchDepth
    have hstart : computed.scratchDepth = before.scratchDepth + 1 :=
      hinner.scratchDepth
    simp only [hdepth, hstart]
    omega
  · have hpeak : loaded.peakDepth =
        max (max computed.peakDepth (computed.scratchDepth + 1)) _ :=
          houter.peakDepth
    have hstart : computed.peakDepth =
        max (max before.peakDepth (before.scratchDepth + 1)) _ :=
          hinner.peakDepth
    have hdepth : computed.scratchDepth = before.scratchDepth + 1 :=
      hinner.scratchDepth
    simp only [hpeak, hstart, hdepth]
    omega

end Generator

end TinyCompiler
