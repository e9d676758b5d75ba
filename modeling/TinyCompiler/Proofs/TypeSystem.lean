import TinyCompiler.Proofs.AnalyzedGeneration

/-!
# The type system

Constants, variables and the results of arithmetic are integers, and the results
of comparisons are Boolean.  Operands, assigned values and written values have
to be integers, and tests have to be Boolean.  A phrase is well typed exactly if
the walk of the analysis makes no mistake on it.
-/

namespace TinyCompiler

def Operator.arithmetic : List Operator := [.plus, .minus, .times, .over]

def Operator.comparisons : List Operator := [.less, .equal]

inductive Expr.HasType : Expr α → ValueType → Prop where
  | const (note : α) (value : Int32) : HasType (.const note value) .integer
  | var (note : α) (name : String) : HasType (.var note name) .integer
  | arithmetic (note : α) {operator : Operator} {left right : Expr α} :
      operator ∈ Operator.arithmetic → HasType left .integer →
        HasType right .integer →
        HasType (.op note operator left right) .integer
  | comparison (note : α) {operator : Operator} {left right : Expr α} :
      operator ∈ Operator.comparisons → HasType left .integer →
        HasType right .integer →
        HasType (.op note operator left right) .boolean

mutual

inductive Stmt.WellTyped : Stmt α → Prop where
  | read (note : α) (name : String) : Stmt.WellTyped (.read note name)
  | assign (note : α) (name : String) {value : Expr α} :
      value.HasType .integer → Stmt.WellTyped (.assign note name value)
  | write (note : α) {value : Expr α} :
      value.HasType .integer → Stmt.WellTyped (.write note value)
  | ifThen (note : α) {test : Expr α} {thenPart : Block α} :
      test.HasType .boolean → Block.WellTyped thenPart →
        Stmt.WellTyped (.ifThen note test thenPart)
  | ifElse (note : α) {test : Expr α} {thenPart elsePart : Block α} :
      test.HasType .boolean → Block.WellTyped thenPart →
        Block.WellTyped elsePart →
        Stmt.WellTyped (.ifElse note test thenPart elsePart)
  | repeatUntil (note : α) {body : Block α} {test : Expr α} :
      Block.WellTyped body → test.HasType .boolean →
        Stmt.WellTyped (.repeatUntil note body test)

inductive Block.WellTyped : Block α → Prop where
  | nil : Block.WellTyped .nil
  | cons {first : Stmt α} {rest : Block α} :
      Stmt.WellTyped first → Block.WellTyped rest →
        Block.WellTyped (.cons first rest)

end

/-! ## Mistakes among findings -/

namespace Finding

def mistakes (findings : List Finding) : List (TypeError × Nat) :=
  findings.filterMap mistake?

variable (name : String) (error : TypeError) (line : Nat)
  (findings others : List Finding)

@[simp] theorem mistakes_nil : mistakes [] = [] := rfl

@[simp] theorem mistakes_append :
    mistakes (findings ++ others) = mistakes findings ++ mistakes others := by
  simp [mistakes]

@[simp] theorem mistakes_occurrence :
    mistakes (.occurrence name line :: findings) = mistakes findings := rfl

theorem mistakes_require_eq_nil_iff {holds : Bool} :
    mistakes (require holds error line) = [] ↔ holds = true := by
  cases holds <;> simp [mistakes, require, mistake?]

end Finding

/-! ## Derivations and the walk -/

theorem Operator.mem_comparisons_iff (operator : Operator) :
    operator ∈ comparisons ↔ operator.resultType = .boolean := by
  cases operator <;> decide

theorem Operator.mem_arithmetic_iff (operator : Operator) :
    operator ∈ arithmetic ↔ operator.resultType = .integer := by
  cases operator <;> decide

theorem Operator.resultType_cases (operator : Operator) :
    operator.resultType = .integer ∨ operator.resultType = .boolean := by
  cases operator <;> decide

theorem Expr.HasType.type_eq {expr : Expr α} {type : ValueType}
    (htype : expr.HasType type) :
    expr.type = type := by
  cases htype with
  | const note value => rfl
  | var note name => rfl
  | arithmetic note hoperator hleft hright =>
      exact (Operator.mem_arithmetic_iff _).mp hoperator
  | comparison note hoperator hleft hright =>
      exact (Operator.mem_comparisons_iff _).mp hoperator

theorem Expr.hasType_op_iff {note : α} {operator : Operator}
    {left right : Expr α} {type : ValueType} :
    (Expr.op note operator left right).HasType type ↔
      left.HasType .integer ∧ right.HasType .integer ∧
        operator.resultType = type := by
  constructor
  · intro htype
    refine ⟨?_, ?_, htype.type_eq⟩ <;> cases htype <;> assumption
  · rintro ⟨hleft, hright, rfl⟩
    rcases operator.resultType_cases with hresult | hresult
    · rw [hresult]
      exact .arithmetic note
        ((Operator.mem_arithmetic_iff operator).mpr hresult) hleft hright
    · rw [hresult]
      exact .comparison note
        ((Operator.mem_comparisons_iff operator).mpr hresult) hleft hright

/-- An expression has its type in the system exactly if there is no mistake in
it. -/
theorem Expr.hasType_iff (expr : Expr Mark) (type : ValueType) :
    expr.HasType type ↔ Finding.mistakes expr.findings = [] ∧
      expr.type = type := by
  induction expr generalizing type with
  | const mark value =>
      constructor
      · intro htype
        exact ⟨rfl, htype.type_eq⟩
      · rintro ⟨-, rfl⟩
        exact .const mark value
  | var mark name =>
      constructor
      · intro htype
        exact ⟨rfl, htype.type_eq⟩
      · rintro ⟨-, rfl⟩
        exact .var mark name
  | op mark operator left right ihLeft ihRight =>
      have htype : (Expr.op mark operator left right).type =
        operator.resultType := rfl
      rw [hasType_op_iff, ihLeft, ihRight, htype]
      simp only [Expr.findings, Finding.mistakes_append, List.append_eq_nil_iff,
        Finding.mistakes_require_eq_nil_iff, Bool.and_eq_true,
        decide_eq_true_eq]
      constructor
      · rintro ⟨⟨hleft, hleftType⟩, ⟨hright, hrightType⟩, hresult⟩
        exact ⟨⟨⟨hleft, hright⟩, hleftType, hrightType⟩, hresult⟩
      · rintro ⟨⟨⟨hleft, hright⟩, hleftType, hrightType⟩, hresult⟩
        exact ⟨⟨hleft, hleftType⟩, ⟨hright, hrightType⟩, hresult⟩

mutual

theorem Stmt.wellTyped_iff : ∀ stmt : Stmt Mark,
    stmt.WellTyped ↔ Finding.mistakes stmt.findings = []
  | .read mark name => by
      simp only [Stmt.findings, Finding.mistakes_occurrence,
        Finding.mistakes_nil, iff_true]
      exact .read mark name
  | .assign mark name value => by
      simp only [Stmt.findings, Finding.mistakes_occurrence,
        Finding.mistakes_append, List.append_eq_nil_iff,
        Finding.mistakes_require_eq_nil_iff, decide_eq_true_eq,
        ← value.hasType_iff]
      constructor
      · rintro ⟨⟩
        assumption
      · exact .assign mark name
  | .write mark value => by
      simp only [Stmt.findings, Finding.mistakes_append, List.append_eq_nil_iff,
        Finding.mistakes_require_eq_nil_iff, decide_eq_true_eq,
        ← value.hasType_iff]
      constructor
      · rintro ⟨⟩
        assumption
      · exact .write mark
  | .ifThen mark test thenPart => by
      simp only [Stmt.findings, Finding.mistakes_append, List.append_eq_nil_iff,
        Finding.mistakes_require_eq_nil_iff, decide_eq_true_eq,
        ← Block.wellTyped_iff thenPart]
      rw [and_right_comm, ← test.hasType_iff]
      constructor
      · rintro ⟨⟩
        exact ⟨‹_›, ‹_›⟩
      · rintro ⟨htest, hthen⟩
        exact .ifThen mark htest hthen
  | .ifElse mark test thenPart elsePart => by
      simp only [Stmt.findings, Finding.mistakes_append, List.append_eq_nil_iff,
        Finding.mistakes_require_eq_nil_iff, decide_eq_true_eq,
        ← Block.wellTyped_iff thenPart, ← Block.wellTyped_iff elsePart]
      rw [and_right_comm, @and_right_comm (Finding.mistakes test.findings = []),
        ← test.hasType_iff]
      constructor
      · rintro ⟨⟩
        exact ⟨⟨‹_›, ‹_›⟩, ‹_›⟩
      · rintro ⟨⟨htest, hthen⟩, helse⟩
        exact .ifElse mark htest hthen helse
  | .repeatUntil mark body test => by
      simp only [Stmt.findings, Finding.mistakes_append, List.append_eq_nil_iff,
        Finding.mistakes_require_eq_nil_iff, decide_eq_true_eq,
        ← Block.wellTyped_iff body]
      rw [and_assoc, ← test.hasType_iff]
      constructor
      · rintro ⟨⟩
        exact ⟨‹_›, ‹_›⟩
      · rintro ⟨hbody, htest⟩
        exact .repeatUntil mark hbody htest

theorem Block.wellTyped_iff : ∀ block : Block Mark,
    block.WellTyped ↔ Finding.mistakes block.findings = []
  | .nil => by
      simp only [Block.findings, Finding.mistakes_nil, iff_true]
      exact .nil
  | .cons first rest => by
      simp only [Block.findings, Finding.mistakes_append,
        List.append_eq_nil_iff, ← Stmt.wellTyped_iff first,
        ← Block.wellTyped_iff rest]
      constructor
      · rintro ⟨⟩
        exact ⟨‹_›, ‹_›⟩
      · rintro ⟨hfirst, hrest⟩
        exact .cons hfirst hrest

end

/-! ## Nodes -/

/-- The type that the expressions of a form have. -/
inductive Form.HasType : Form → ValueType → Prop where
  | const (value : Int32) : HasType (.const value) .integer
  | var (name : String) : HasType (.var name) .integer
  | arithmetic {operator : Operator} (left right : NodeId) :
      operator ∈ Operator.arithmetic →
        HasType (.op operator left right) .integer
  | comparison {operator : Operator} (left right : NodeId) :
      operator ∈ Operator.comparisons →
        HasType (.op operator left right) .boolean

theorem Form.hasType_type {form : Form}
    (hcategory : form.category = .expression) :
    form.HasType form.type := by
  cases form with
  | const value => exact .const value
  | var name => exact .var name
  | op operator left right =>
      have htype : (Form.op operator left right).type =
        operator.resultType := rfl
      rw [htype]
      rcases operator.resultType_cases with hresult | hresult
      · rw [hresult]
        exact .arithmetic left right (operator.mem_arithmetic_iff.mpr hresult)
      · rw [hresult]
        exact .comparison left right (operator.mem_comparisons_iff.mpr hresult)
  | _ => simp [category] at hcategory

end TinyCompiler
