import Mathlib.Data.List.Basic
import Mathlib.Data.List.Induction
import TinyCompiler.Generator.Basic
import TinyCompiler.Proofs.Actions

/-!
# Calls on a generator

A generator is called to emit instructions, to patch jumps and to reserve and
release scratch cells, in any order and with any addresses.  The calls and their
answers make up a transcript, and the transcript tells what the generator holds:
the instructions emitted so far, each with the target it was patched to, and the
jumps that wait for one.
-/

namespace TinyCompiler
namespace Generator

inductive Call where
  | emit (instruction : Instruction)
  | emitJump
  | emitJumpIfZero
  | patch (address target : Nat)
  | reserveScratch
  | releaseScratch (count : Nat)
  deriving DecidableEq, Repr

inductive Answer where
  | address (address : Nat)
  | location (location : Nat)
  | done
  | refused (error : GenerationError)
  deriving DecidableEq, Repr

def Call.action : Call → Action Answer
  | .emit instruction => return .address (← Generator.emit instruction)
  | .emitJump => return .address (← emitPending .jump)
  | .emitJumpIfZero => return .address (← emitPending .jumpIfZero)
  | .patch address target => do
      Generator.patch address target
      return .done
  | .reserveScratch => return .location (← Generator.reserveScratch)
  | .releaseScratch count => do
      Generator.releaseScratch count
      return .done

/-- The answer to a call, and the generator behind it. -/
def perform (generator : Generator) (call : Call) : Answer × Generator :=
  match call.action generator with
  | .ok answer after => (answer, after)
  | .error error after => (.refused error, after)

abbrev Transcript := List (Call × Answer)

def record (state : Transcript × Generator) (call : Call) :
    Transcript × Generator :=
  (state.1 ++ [(call, (state.2.perform call).1)], (state.2.perform call).2)

/-- The transcript of calls on a new generator, and the generator behind
them. -/
def run (symbols : SymbolTable) (calls : List Call) : Transcript × Generator :=
  calls.foldl record ([], start symbols)

theorem run_concat (symbols : SymbolTable) (calls : List Call) (call : Call) :
    run symbols (calls ++ [call]) = record (run symbols calls) call :=
  List.foldl_append

/-! ## What a transcript tells -/

def Call.instruction? : Call → Option Instruction
  | .emit instruction => some instruction
  | .emitJump => some (.jump placeholder)
  | .emitJumpIfZero => some (.jumpIfZero placeholder)
  | .patch _ _ | .reserveScratch | .releaseScratch _ => none

def Call.leavesOpen : Call → Bool
  | .emitJump | .emitJumpIfZero => true
  | .emit _ | .patch _ _ | .reserveScratch | .releaseScratch _ => false

/-- The target to which a call has patched the jump at an address. -/
def patchedTo? (address : Nat) : Call × Answer → Option Nat
  | (.patch patched target, .done) =>
      if patched = address then some target else none
  | _ => none

def aimed : Option Nat → Instruction → Instruction
  | some target, instruction => instruction.retarget target
  | none, instruction => instruction

namespace Transcript

def emitted (transcript : Transcript) : List Instruction :=
  transcript.filterMap fun entry => entry.1.instruction?

def target? (transcript : Transcript) (address : Nat) : Option Nat :=
  transcript.findSome? (patchedTo? address)

/-- The instructions emitted, each with the target to which it was patched. -/
def code (transcript : Transcript) : List Instruction :=
  transcript.emitted.mapIdx fun address => aimed (transcript.target? address)

/-- The address is where a jump was emitted without a target, and no call has
patched it since. -/
def Waits (transcript : Transcript) (address : Nat) : Prop :=
  ∃ before call after,
    transcript = before ++ (call, .address address) :: after ∧
    call.leavesOpen ∧ target? after address = none

section Concat

variable (transcript : Transcript) (entry : Call × Answer) (address : Nat)

theorem target?_concat :
    target? (transcript ++ [entry]) address =
      (transcript.target? address).or (patchedTo? address entry) := by
  simp [target?, List.findSome?_append]

theorem waits_nil : ¬ Waits [] address := by
  rintro ⟨before, call, after, hsplit, -⟩
  simp at hsplit

theorem waits_concat :
    Waits (transcript ++ [entry]) address ↔
      (entry.1.leavesOpen ∧ entry.2 = .address address) ∨
        transcript.Waits address ∧ patchedTo? address entry = none := by
  constructor
  · rintro ⟨before, call, after, hsplit, hopen, hfree⟩
    rcases List.eq_nil_or_concat' after with rfl | ⟨rest, last, rfl⟩
    · obtain ⟨-, hentry⟩ := List.append_inj' hsplit rfl
      obtain rfl := List.singleton_inj.mp hentry
      exact .inl ⟨hopen, rfl⟩
    · rw [← List.cons_append, ← List.append_assoc] at hsplit
      obtain ⟨htranscript, hentry⟩ := List.append_inj' hsplit rfl
      obtain rfl := List.singleton_inj.mp hentry
      rw [target?_concat, Option.or_eq_none_iff] at hfree
      exact .inr ⟨⟨before, call, rest, htranscript, hopen, hfree.1⟩, hfree.2⟩
  · rintro (⟨hopen,
      hanswer⟩ | ⟨⟨before, call, after, rfl, hopen, hfree⟩, hother⟩)
    · exact ⟨transcript, entry.1, [], by rw [← hanswer], hopen, rfl⟩
    · refine ⟨before, call, after ++ [entry], by simp, hopen, ?_⟩
      rw [target?_concat, hfree, hother, Option.or_none]

theorem emitted_concat :
    emitted (transcript ++ [entry]) =
      transcript.emitted ++ entry.1.instruction?.toList := by
  cases hinstruction : entry.1.instruction? <;> simp [emitted, hinstruction]

theorem getElem?_code :
    transcript.code[address]? =
      transcript.emitted[address]?.map
        (aimed (transcript.target? address)) := by
  rw [code, List.getElem?_mapIdx]

@[simp] theorem length_code :
    transcript.code.length = transcript.emitted.length := by
  simp [code]

end Concat

end Transcript

/-! ## What a generator holds -/

/-- The generator holds what the transcript tells. -/
structure Follows (symbols : SymbolTable) (transcript : Transcript)
    (generator : Generator) :
    Prop where
  symbols : generator.symbols = symbols
  code : generator.code.toList = transcript.code
  pending : ∀ address, address ∈ generator.pending ↔ transcript.Waits address
  distinct : generator.pending.Nodup
  /-- What waits is a jump, and it still has no target. -/
  jumps : ∀ address ∈ generator.pending, transcript.target? address = none ∧
    ∃ jump ∈ [Instruction.jump, .jumpIfZero],
      generator.code[address]? = some (jump placeholder)
  /-- Only what has been emitted was ever patched. -/
  unemitted : ∀ address,
    generator.code.size ≤ address → transcript.target? address = none

theorem follows_start (symbols : SymbolTable) :
    Follows symbols [] (start symbols) where
  symbols := rfl
  code := rfl
  pending := fun address => by simp [start, Transcript.waits_nil]
  distinct := List.nodup_nil
  jumps := by simp [start]
  unemitted := fun _ _ => rfl

section Follows

variable {symbols : SymbolTable} {transcript : Transcript}
  {generator after : Generator} {call : Call} {answer : Answer}

theorem Follows.size_eq (hfollows : Follows symbols transcript generator) :
    generator.code.size = transcript.emitted.length := by
  have hlength := congrArg List.length hfollows.code
  simpa using hlength

theorem Follows.kept (hfollows : Follows symbols transcript generator)
    (hinstruction : call.instruction? = none) (hopen : call.leavesOpen = false)
    (hpatch : ∀ address, patchedTo? address (call, answer) = none)
    (hsymbols : after.symbols = generator.symbols)
    (hcode : after.code = generator.code)
    (hpending : after.pending = generator.pending) :
    Follows symbols (transcript ++ [(call, answer)]) after := by
  have htarget : ∀ address,
      Transcript.target? (transcript ++ [(call, answer)]) address =
      transcript.target? address := by
    intro address
    rw [Transcript.target?_concat, hpatch, Option.or_none]
  refine ⟨hsymbols.trans hfollows.symbols, ?_, ?_,
    hpending ▸ hfollows.distinct, ?_, ?_⟩
  · rw [hcode, hfollows.code]
    simp [Transcript.code, Transcript.emitted_concat, hinstruction, htarget]
  · intro address
    rw [hpending, hfollows.pending, Transcript.waits_concat, hpatch]
    simp [hopen]
  · intro address haddress
    rw [htarget, hcode]
    exact hfollows.jumps address (hpending ▸ haddress)
  · intro address haddress
    rw [htarget]
    exact hfollows.unemitted address (hcode ▸ haddress)

theorem Follows.emitted (hfollows : Follows symbols transcript generator)
    {instruction : Instruction}
    (hinstruction : call.instruction? = some instruction)
    (hsymbols : after.symbols = generator.symbols)
    (hcode : after.code = generator.code.push instruction)
    (hpending : after.pending =
      if call.leavesOpen then generator.nextAddress :: generator.pending
      else generator.pending) :
    Follows symbols
      (transcript ++ [(call, .address generator.nextAddress)]) after := by
  have hpatch : ∀ address,
      patchedTo? address (call, .address generator.nextAddress) = none := by
    intro address
    cases call <;> rfl
  have htarget : Transcript.target?
      (transcript ++ [(call, .address generator.nextAddress)]) =
      transcript.target? := by
    funext address
    rw [Transcript.target?_concat, hpatch, Option.or_none]
  have hfresh : transcript.target? transcript.emitted.length = none :=
    hfollows.unemitted _ (Nat.le_of_eq hfollows.size_eq)
  have hmem : ∀ address, address ∈ after.pending ↔
      call.leavesOpen ∧ generator.nextAddress = address ∨
        address ∈ generator.pending := by
    intro address
    rw [hpending]
    cases call.leavesOpen <;> simp [eq_comm]
  refine ⟨hsymbols.trans hfollows.symbols, ?_, ?_, ?_, ?_, ?_⟩
  · rw [hcode, Array.toList_push, hfollows.code, Transcript.code,
      Transcript.code, htarget, Transcript.emitted_concat, hinstruction,
      Option.toList_some, List.mapIdx_concat, hfresh]
    rfl
  · intro address
    rw [hmem, hfollows.pending, Transcript.waits_concat, hpatch]
    simp
  · -- Every jump that waits stands in the code already.
    have hnew : generator.nextAddress ∉ generator.pending := by
      intro hold
      obtain ⟨-, jump, -, hjump⟩ := hfollows.jumps _ hold
      rw [nextAddress, Array.getElem?_size] at hjump
      contradiction
    rw [hpending]
    split
    · exact List.nodup_cons.mpr ⟨hnew, hfollows.distinct⟩
    · exact hfollows.distinct
  · intro address haddress
    rw [htarget, hcode]
    rcases (hmem address).mp haddress with ⟨hopen, rfl⟩ | hold
    · refine ⟨hfollows.unemitted _ (Nat.le_refl _), ?_⟩
      rw [nextAddress, Array.getElem?_push_size]
      cases call <;> cases hopen <;> cases hinstruction <;> simp
    · obtain ⟨hfree, jump, hkind, hjump⟩ := hfollows.jumps address hold
      obtain ⟨hlt, -⟩ := Array.getElem?_eq_some_iff.mp hjump
      refine ⟨hfree, jump, hkind, ?_⟩
      rw [Array.getElem?_push_lt hlt, ← hjump, Array.getElem?_eq_getElem hlt]
  · intro address haddress
    rw [htarget]
    rw [hcode, Array.size_push] at haddress
    exact hfollows.unemitted address (Nat.le_of_succ_le haddress)

/-- The jump at an address with a target, and the address no longer among those
that wait. -/
def patched (generator : Generator) (address target : Nat) : Generator :=
  { generator with
    code := generator.code.modify address (Instruction.retarget target)
    pending := generator.pending.erase address
    history := generator.history.push (.patched address target) }

theorem patch_eq (generator : Generator) (address target : Nat) :
    patch address target generator =
      if address ∈ generator.pending then
        .ok () (generator.patched address target)
      else .error (.notAJump address) generator := by
  change (if address ∈ generator.pending then _ else _ : Action Unit)
    generator = _
  split <;> rfl

theorem Follows.patched (hfollows : Follows symbols transcript generator)
    {address : Nat} (hwaits : address ∈ generator.pending) (target : Nat) :
    Follows symbols (transcript ++ [(.patch address target, .done)])
      (generator.patched address target) := by
  obtain ⟨hfree, -⟩ := hfollows.jumps address hwaits
  have htarget : ∀ other,
      Transcript.target?
        (transcript ++ [(.patch address target, .done)]) other =
        (transcript.target? other).or
          (if address = other then some target else none) :=
    fun other => transcript.target?_concat _ other
  have hmem : ∀ other, other ∈ (generator.patched address target).pending ↔
      other ≠ address ∧ other ∈ generator.pending :=
    fun other => hfollows.distinct.mem_erase_iff
  refine ⟨hfollows.symbols, ?_, ?_, hfollows.distinct.erase address, ?_, ?_⟩
  · apply List.ext_getElem?
    intro other
    have hold : generator.code[other]? =
        transcript.emitted[other]?.map (aimed (transcript.target? other)) := by
      rw [← Array.getElem?_toList, hfollows.code, Transcript.getElem?_code]
    rw [Transcript.getElem?_code, htarget, Transcript.emitted_concat]
    simp only [Generator.patched, Call.instruction?, Option.toList_none,
      List.append_nil, Array.getElem?_toList, Array.getElem?_modify, hold]
    by_cases hsame : address = other
    · subst hsame
      rw [if_pos rfl, if_pos rfl, hfree, Option.map_map]
      rfl
    · rw [if_neg hsame, if_neg hsame, Option.or_none]
  · intro other
    rw [hmem, hfollows.pending, Transcript.waits_concat]
    simp [Call.leavesOpen, patchedTo?, and_comm, eq_comm]
  · intro other hother
    obtain ⟨hne, hold⟩ := (hmem other).mp hother
    obtain ⟨hopen, hjump⟩ := hfollows.jumps other hold
    rw [htarget, hopen, if_neg (Ne.symm hne)]
    refine ⟨rfl, ?_⟩
    simpa [Generator.patched, Array.getElem?_modify, Ne.symm hne] using hjump
  · intro other hother
    have hsize : generator.code.size ≤ other := by
      simpa [Generator.patched] using hother
    obtain ⟨-, jump, -, hjump⟩ := hfollows.jumps address hwaits
    obtain ⟨hlt, -⟩ := Array.getElem?_eq_some_iff.mp hjump
    have hne : address ≠ other := Nat.ne_of_lt (Nat.lt_of_lt_of_le hlt hsize)
    rw [htarget, hfollows.unemitted other hsize, if_neg hne]
    rfl

theorem perform_patch (generator : Generator) (address target : Nat) :
    generator.perform (.patch address target) =
      if address ∈ generator.pending then
        (.done, generator.patched address target)
      else (.refused (.notAJump address), generator) := by
  have haction : (Call.patch address target).action =
      (do Generator.patch address target; return .done) := rfl
  unfold perform
  rw [haction, bind_apply, patch_eq]
  by_cases hwaits : address ∈ generator.pending
  · rw [if_pos hwaits, if_pos hwaits]
    rfl
  · rw [if_neg hwaits, if_neg hwaits]

theorem Follows.record (hfollows : Follows symbols transcript generator)
    (call : Call) :
    Follows symbols (record (transcript, generator) call).1
      (record (transcript, generator) call).2 := by
  cases call with
  | emit instruction => exact hfollows.emitted rfl rfl rfl rfl
  | emitJump => exact hfollows.emitted rfl rfl rfl rfl
  | emitJumpIfZero => exact hfollows.emitted rfl rfl rfl rfl
  | patch address target =>
      unfold Generator.record
      rw [perform_patch]
      by_cases hwaits : address ∈ generator.pending
      · rw [if_pos hwaits]
        exact hfollows.patched hwaits target
      · rw [if_neg hwaits]
        exact hfollows.kept rfl rfl (fun _ => rfl) rfl rfl rfl
  | reserveScratch => exact hfollows.kept rfl rfl (fun _ => rfl) rfl rfl rfl
  | releaseScratch count =>
      exact hfollows.kept rfl rfl (fun _ => rfl) rfl rfl rfl

theorem run_follows (symbols : SymbolTable) (calls : List Call) :
    Follows symbols (run symbols calls).1 (run symbols calls).2 := by
  -- The last call is the one that acts on the generator behind the others.
  induction calls using List.reverseRecOn with
  | nil => exact follows_start symbols
  | append_singleton calls call ih =>
      rw [run_concat]
      exact ih.record call

end Follows

/-! ## Scratch cells in use -/

def Call.reserves : Call → Nat
  | .reserveScratch => 1
  | .emit _ | .emitJump | .emitJumpIfZero | .patch _ _ | .releaseScratch _ => 0

def Call.releases : Call → Nat
  | .releaseScratch count => count
  | .emit _ | .emitJump | .emitJumpIfZero | .patch _ _ | .reserveScratch => 0

def total (count : Call → Nat) (calls : List Call) : Nat :=
  calls.foldl (fun sum call => sum + count call) 0

theorem total_concat (count : Call → Nat) (calls : List Call) (call : Call) :
    total count (calls ++ [call]) = total count calls + count call :=
  List.foldl_append

/-- The cells reserved and not released. -/
def inUse (calls : List Call) : Nat :=
  total Call.reserves calls - total Call.releases calls

/-- No call releases more cells than are in use. -/
def Balanced (calls : List Call) : Prop :=
  ∀ index (hindex : index < calls.length),
    calls[index].releases ≤ inUse (calls.take index)

instance (calls : List Call) : Decidable (Balanced calls) :=
  Nat.decidableBallLT _ _

/-- The largest number of cells that are in use at once. -/
def Peak (calls : List Call) (peak : Nat) : Prop :=
  (∀ index, inUse (calls.take index) ≤ peak) ∧ ∃ index,
    inUse (calls.take index) = peak

theorem balanced_concat {calls : List Call} {call : Call} :
    Balanced (calls ++ [call]) ↔
      Balanced calls ∧ call.releases ≤ inUse calls := by
  constructor
  · intro hbalanced
    constructor
    · intro index hindex
      have hstep := hbalanced index (by simp; omega)
      rwa [List.getElem_append_left hindex,
        List.take_append_of_le_length (Nat.le_of_lt hindex)] at hstep
    · have hstep := hbalanced calls.length (by simp)
      rwa [List.getElem_concat_length rfl, List.take_left] at hstep
  · rintro ⟨hbalanced, hreleases⟩ index hindex
    rcases Nat.lt_or_ge index calls.length with hold | hlast
    · rw [List.getElem_append_left hold,
        List.take_append_of_le_length (Nat.le_of_lt hold)]
      exact hbalanced index hold
    · obtain rfl : index = calls.length := by
        rw [List.length_append, List.length_singleton] at hindex
        omega
      rwa [List.getElem_concat_length rfl, List.take_left]

theorem peak_nil : Peak [] 0 := by
  refine ⟨fun index => ?_, 0, rfl⟩
  rw [List.take_nil]
  exact Nat.le_refl 0

theorem Peak.inUse_le {calls : List Call} {peak : Nat}
    (hpeak : Peak calls peak) :
    inUse calls ≤ peak := by
  have hall := hpeak.1 calls.length
  rwa [List.take_length] at hall

theorem Peak.concat {calls : List Call} {peak : Nat} (hpeak : Peak calls peak)
    (call : Call) :
    Peak (calls ++ [call]) (max peak (inUse (calls ++ [call]))) := by
  -- A prefix of the longer list is one of the shorter, or the longer list
  -- itself.
  have htake : ∀ index, (calls ++ [call]).take index = calls.take index ∨
      (calls ++ [call]).take index = calls ++ [call] := by
    intro index
    rcases Nat.lt_or_ge calls.length index with hbeyond | hwithin
    · exact .inr
        (List.take_of_length_le (by rw [List.length_append]; exact hbeyond))
    · exact .inl (List.take_append_of_le_length hwithin)
  obtain ⟨hbound, reached, hreached⟩ := hpeak
  constructor
  · intro index
    rcases htake index with hold | hall
    · rw [hold]
      exact Nat.le_trans (hbound index) (Nat.le_max_left _ _)
    · rw [hall]
      exact Nat.le_max_right _ _
  · rcases Nat.le_total peak (inUse (calls ++ [call])) with hle | hle
    · exact ⟨(calls ++ [call]).length,
        by rw [List.take_length, Nat.max_eq_right hle]⟩
    · refine ⟨min reached calls.length, ?_⟩
      rw [List.take_append_of_le_length
        (Nat.min_le_right _ _), ← List.take_take, List.take_length, hreached,
        Nat.max_eq_left hle]

structure Counts (calls : List Call) (generator : Generator) : Prop where
  covered : total Call.releases calls ≤ total Call.reserves calls
  depth : generator.scratchDepth = inUse calls
  peak : Peak calls generator.peakDepth

theorem counts_start (symbols : SymbolTable) : Counts [] (start symbols) :=
  ⟨Nat.le_refl 0, rfl, peak_nil⟩

section Counts

variable {calls : List Call} {call : Call} {generator after : Generator}

theorem covered_concat
    (hcovered : total Call.releases calls ≤ total Call.reserves calls)
    (hreleases : call.releases ≤ inUse calls) :
    total Call.releases (calls ++ [call]) ≤
      total Call.reserves (calls ++ [call]) := by
  rw [inUse] at hreleases
  rw [total_concat, total_concat]
  omega

theorem inUse_concat
    (hcovered : total Call.releases calls ≤ total Call.reserves calls)
    (hreleases : call.releases ≤ inUse calls) :
    inUse (calls ++ [call]) = inUse calls + call.reserves - call.releases := by
  rw [inUse] at hreleases
  rw [inUse, inUse, total_concat, total_concat]
  omega

theorem Counts.lowered (hcounts : Counts calls generator)
    (hreserves : call.reserves = 0) (hreleases : call.releases ≤ inUse calls)
    (hdepth : after.scratchDepth = generator.scratchDepth - call.releases)
    (hpeak : after.peakDepth = generator.peakDepth) :
    Counts (calls ++ [call]) after := by
  have huse := inUse_concat hcounts.covered hreleases
  have hbound := hcounts.peak.inUse_le
  refine ⟨covered_concat hcounts.covered hreleases, ?_, ?_⟩
  · rw [hdepth, hcounts.depth, huse, hreserves, Nat.add_zero]
  · have hconcat := hcounts.peak.concat call
    rwa [huse, hreserves, Nat.max_eq_left (by omega), ← hpeak] at hconcat

theorem Counts.raised (hcounts : Counts calls generator) :
    Counts (calls ++ [.reserveScratch])
      (generator.perform .reserveScratch).2 := by
  have huse : inUse (calls ++ [.reserveScratch]) = inUse calls + 1 :=
    inUse_concat hcounts.covered (Nat.zero_le _)
  have hconcat := hcounts.peak.concat .reserveScratch
  rw [huse] at hconcat
  refine ⟨covered_concat hcounts.covered (Nat.zero_le _), ?_, ?_⟩
  · rw [huse, ← hcounts.depth]
    rfl
  · rw [← hcounts.depth] at hconcat
    exact hconcat

theorem Counts.perform (hcounts : Counts calls generator)
    (hreleases : call.releases ≤ inUse calls) :
    Counts (calls ++ [call]) (generator.perform call).2 := by
  cases call with
  | emit instruction => exact hcounts.lowered rfl hreleases rfl rfl
  | emitJump => exact hcounts.lowered rfl hreleases rfl rfl
  | emitJumpIfZero => exact hcounts.lowered rfl hreleases rfl rfl
  | patch address target =>
      rw [perform_patch]
      split <;> exact hcounts.lowered rfl hreleases rfl rfl
  | reserveScratch => exact hcounts.raised
  | releaseScratch count => exact hcounts.lowered rfl hreleases rfl rfl

theorem run_counts (symbols : SymbolTable) (hbalanced : Balanced calls) :
    Counts calls (run symbols calls).2 := by
  induction calls using List.reverseRecOn with
  | nil => exact counts_start symbols
  | append_singleton calls call ih =>
      obtain ⟨hbefore, hreleases⟩ := balanced_concat.mp hbalanced
      rw [run_concat]
      exact (ih hbefore).perform hreleases

end Counts

/-! ## The end -/

def ended (generator : Generator) : Generator :=
  { generator with
    code := generator.code.push .halt
    history := generator.history.push (.emitted generator.nextAddress .halt) }

theorem finish_eq (generator : Generator) :
    finish generator =
      match generator.pending.min? with
      | some address => .error (.unpatchedJump address) generator.ended
      | none =>
          .ok ⟨generator.code.push .halt,
            generator.symbols.size + generator.peakDepth⟩
            generator.ended := by
  change (match generator.pending.min? with
    | some address => throw (.unpatchedJump address)
    | none => pure _ : Action Program) generator.ended = _
  cases generator.pending.min? <;> rfl

/-! ## Patching step by step -/

/-- Patches a jump in place: its address no longer waits when the instruction
there is looked at. -/
def patchInSteps (address target : Nat) : Action Unit := do
  if address ∈ (← get).pending then
    modify fun generator =>
      { generator with pending := generator.pending.erase address }
    match (← get).code[address]? with
    | some (.jump _) => point (.jump target)
    | some (.jumpIfZero _) => point (.jumpIfZero target)
    | _ => throw (.notAJump address)
  else throw (.notAJump address)
where
  point (jump : Instruction) : Action Unit :=
    modify fun generator =>
      { generator with
        code := generator.code.set! address jump
        history := generator.history.push (.patched address target) }

theorem modify_eq_set! {code : Array Instruction} {address : Nat}
    {instruction : Instruction}
    (hinstruction : code[address]? = some instruction)
    (change : Instruction → Instruction) :
    code.modify address change = code.set! address (change instruction) := by
  apply Array.ext_getElem?
  intro other
  obtain ⟨hlt, -⟩ := Array.getElem?_eq_some_iff.mp hinstruction
  rw [Array.getElem?_modify, Array.set!_eq_setIfInBounds,
    Array.getElem?_setIfInBounds]
  by_cases hsame : address = other
  · subst hsame
    rw [if_pos rfl, if_pos rfl, if_pos hlt, hinstruction, Option.map_some]
  · rw [if_neg hsame, if_neg hsame]

/-- As all that waits are jumps, the second look never fails. -/
theorem Follows.patchInSteps_eq {symbols : SymbolTable}
    {transcript : Transcript} {generator : Generator}
    (hfollows : Follows symbols transcript generator) (address target : Nat) :
    patchInSteps address target generator = patch address target generator := by
  rw [patch_eq]
  unfold patchInSteps
  rw [bind_apply, get_apply]
  by_cases hwaits : address ∈ generator.pending
  · obtain ⟨-, jump, hkind, hjump⟩ := hfollows.jumps address hwaits
    rw [if_pos hwaits]
    simp only [if_pos hwaits, Generator.patched, modify_eq_set! hjump]
    change (match generator.code[address]? with
      | some (.jump _) => patchInSteps.point address target (.jump target)
      | some (.jumpIfZero _) =>
          patchInSteps.point address target (.jumpIfZero target)
      | _ => throw (.notAJump address) : Action Unit)
        { generator with pending := generator.pending.erase address } = _
    rw [hjump]
    rcases List.mem_pair.mp hkind with rfl | rfl <;> rfl
  · simp only [if_neg hwaits]
    rfl

/-! ## Any calls -/

section Any

variable {symbols : SymbolTable} {transcript : Transcript}
  {generator : Generator} (hfollows : Follows symbols transcript generator)

include hfollows

theorem Follows.patch_waiting {address : Nat}
    (hwaits : transcript.Waits address) (target : Nat) :
    ∃ jump ∈ [Instruction.jump, .jumpIfZero], ∃ after,
      patch address target generator = .ok () after ∧
        generator.code[address]? = some (jump placeholder) ∧
        after.code = generator.code.set! address (jump target) ∧
        ∀ other, other ∈ after.pending ↔
          other ≠ address ∧ other ∈ generator.pending := by
  have hmem := (hfollows.pending address).mpr hwaits
  obtain ⟨-, jump, hkind, hjump⟩ := hfollows.jumps address hmem
  refine ⟨jump, hkind, generator.patched address target, ?_, hjump, ?_, ?_⟩
  · rw [patch_eq, if_pos hmem]
  · rw [Generator.patched, modify_eq_set! hjump]
    rcases List.mem_pair.mp hkind with rfl | rfl <;> rfl
  · exact fun other => hfollows.distinct.mem_erase_iff

theorem Follows.patch_refused {address : Nat}
    (hfree : ¬ transcript.Waits address) (target : Nat) :
    patch address target generator = .error (.notAJump address) generator := by
  rw [patch_eq, if_neg (mt (hfollows.pending address).mp hfree)]

/-- A call leaves every instruction alone but the one that it patches. -/
theorem Follows.getElem?_perform {call : Call} {address : Nat}
    {instruction : Instruction}
    (hinstruction : generator.code[address]? = some instruction)
    (hother : patchedTo? address (call, (generator.perform call).1) = none) :
    (generator.perform call).2.code[address]? = some instruction := by
  have hafter : (generator.perform call).2.code.toList =
      Transcript.code (transcript ++ [(call, (generator.perform call).1)]) :=
    (hfollows.record call).code
  obtain ⟨hlt, -⟩ := Array.getElem?_eq_some_iff.mp hinstruction
  rw [hfollows.size_eq] at hlt
  rw [← Array.getElem?_toList, hfollows.code, Transcript.getElem?_code]
    at hinstruction
  rw [← Array.getElem?_toList, hafter, Transcript.getElem?_code,
    Transcript.target?_concat, hother, Option.or_none,
    Transcript.emitted_concat, List.getElem?_append_left hlt,
    hinstruction]

theorem Follows.finish_cases :
    ((∀ address, ¬ transcript.Waits address) ∧ finish generator =
        .ok ⟨(transcript.code ++ [Instruction.halt]).toArray,
          symbols.size + generator.peakDepth⟩ generator.ended) ∨
      ∃ address, transcript.Waits address ∧
        (∀ other, transcript.Waits other → address ≤ other) ∧
        finish generator = .error (.unpatchedJump address) generator.ended := by
  cases hmin : generator.pending.min? with
  | none =>
      have hpending : generator.pending = [] := List.min?_eq_none_iff.mp hmin
      refine .inl ⟨fun address hwaits => ?_, ?_⟩
      · have hmem := (hfollows.pending address).mpr hwaits
        rw [hpending] at hmem
        exact List.not_mem_nil hmem
      · rw [finish_eq, hmin,
          hfollows.symbols, ← hfollows.code, ← Array.toList_push,
          Array.toArray_toList]
  | some address =>
      obtain ⟨hmem, hfirst⟩ := List.min?_eq_some_iff.mp hmin
      refine .inr ⟨address, (hfollows.pending address).mp hmem, ?_, ?_⟩
      · exact fun other hwaits =>
          hfirst other ((hfollows.pending other).mpr hwaits)
      · rw [finish_eq, hmin]

end Any

/-- Two jumps, of which only the first gets its target. -/
def twoBranches : List Call :=
  [.reserveScratch, .emitJumpIfZero, .reserveScratch,
    .emit (.loadImmediate 7), .patch 1 9, .emitJump, .patch 0 3, .patch 0 4,
    .releaseScratch 2]

/-- Whatever a generator is called to do, a jump is patched exactly if it was
emitted without a target and has not been patched since; that changes the target
of this one jump, and any other patching is refused and changes nothing.  No
call changes another instruction.  Finishing fails at the first jump that waits,
and without one it gives the instructions emitted with the targets patched and a
`HALT` behind them, and memory for the variables and as many scratch cells as
were in use at once. -/
theorem calls_determine_program (symbols : SymbolTable) (calls : List Call)
    (hbalanced : Balanced calls) :
    let transcript := (run symbols calls).1
    let generator := (run symbols calls).2
    (∀ address target, transcript.Waits address →
      ∃ jump ∈ [Instruction.jump, .jumpIfZero], ∃ after,
        patch address target generator = .ok () after ∧
          generator.code[address]? = some (jump placeholder) ∧
          after.code = generator.code.set! address (jump target) ∧
          ∀ other, other ∈ after.pending ↔
            other ≠ address ∧ other ∈ generator.pending) ∧
      (∀ address target, ¬ transcript.Waits address →
        patch address target generator = .error (.notAJump address) generator) ∧
      (∀ address target,
        patchInSteps address target generator =
          patch address target generator) ∧
      (∀ call address instruction, generator.code[address]? = some instruction →
        patchedTo? address (call, (generator.perform call).1) = none →
          (generator.perform call).2.code[address]? = some instruction) ∧
      ((∀ address, ¬ transcript.Waits address) ∧
          (∃ peak after, Peak calls peak ∧ finish generator =
            .ok ⟨(transcript.code ++ [Instruction.halt]).toArray,
              symbols.size + peak⟩ after) ∨
        ∃ address after, transcript.Waits address ∧
          (∀ other, transcript.Waits other → address ≤ other) ∧
          finish generator = .error (.unpatchedJump address) after) := by
  intro transcript generator
  have hfollows : Follows symbols transcript generator :=
    run_follows symbols calls
  have hcounts : Counts calls generator := run_counts symbols hbalanced
  refine ⟨?_, ?_, hfollows.patchInSteps_eq,
    fun _ _ _ => hfollows.getElem?_perform, ?_⟩
  · exact fun address target hwaits => hfollows.patch_waiting hwaits target
  · exact fun address target hfree => hfollows.patch_refused hfree target
  · rcases hfollows.finish_cases
      with ⟨hnone, hfinish⟩ | ⟨address, hwaits, hfirst, hfinish⟩
    · exact .inl
        ⟨hnone, generator.peakDepth, generator.ended, hcounts.peak, hfinish⟩
    · exact .inr ⟨address, generator.ended, hwaits, hfirst, hfinish⟩

theorem twoBranches_unfinished :
    Balanced twoBranches ∧
      (∃ after, patch 2 4 (run SymbolTable.empty twoBranches).2 =
        .ok () after) ∧
      ∃ after, finish (run SymbolTable.empty twoBranches).2 =
        .error (.unpatchedJump 2) after := by
  have hbalanced : Balanced twoBranches := by decide
  have hwaits : ∀ address,
      Transcript.Waits (run SymbolTable.empty twoBranches).1 address ↔
        address = 2 := by
    intro address
    rw [← (run_follows SymbolTable.empty twoBranches).pending address]
    exact List.mem_singleton
  obtain ⟨hpatch, -, -, -, hend⟩ :=
    calls_determine_program SymbolTable.empty twoBranches hbalanced
  refine ⟨hbalanced, ?_, ?_⟩
  · obtain ⟨jump, -, after, hafter, -⟩ := hpatch 2 4 ((hwaits 2).mpr rfl)
    exact ⟨after, hafter⟩
  · rcases hend with ⟨hnone, -⟩ | ⟨address, after, hfirst, -, hfinish⟩
    · exact absurd ((hwaits 2).mpr rfl) (hnone 2)
    · obtain rfl := (hwaits address).mp hfirst
      exact ⟨after, hfinish⟩

end Generator
end TinyCompiler
