/-!
# Running actions

How results that may fail and actions on a state are taken apart.  An action of
several steps is the first step followed by the others on the state it leaves,
and a step that fails ends it.
-/

namespace TinyCompiler

variable {ε σ α β : Type}

theorem except_bind_eq_ok {first : Except ε α} {next : α → Except ε β}
    {result : β} :
    (first >>= next) = .ok result ↔
      ∃ value, first = .ok value ∧ next value = .ok result := by
  cases first <;> simp [bind, Except.bind]

theorem except_bind_of_ok {first : Except ε α} {value : α}
    (hfirst : first = .ok value) (next : α → Except ε β) :
    (first >>= next) = next value := by
  subst hfirst
  rfl

theorem except_map_eq_ok {first : Except ε α} {change : α → β} {result : β} :
    first.map change = .ok result ↔
      ∃ value, first = .ok value ∧ change value = result := by
  cases first <;> simp [Except.map]

theorem except_map_eq_error {first : Except ε α} {change : α → β} {error : ε} :
    first.map change = .error error ↔ first = .error error := by
  cases first <;> simp [Except.map]

theorem except_bind_eq_error {first : Except ε α} {next : α → Except ε β}
    {error : ε} :
    (first >>= next) = .error error ↔
      first = .error error ∨ ∃ value,
        first = .ok value ∧ next value = .error error := by
  cases first <;> simp [bind, Except.bind]

theorem except_mapError_eq_ok {result : Except ε α} {change : ε → σ}
    {value : α} :
    result.mapError change = .ok value ↔ result = .ok value := by
  cases result with
  | ok found =>
      constructor
      · rintro ⟨⟩
        rfl
      · rintro ⟨⟩
        rfl
  | error cause => constructor <;> rintro ⟨⟩

theorem except_mapError_eq_error {result : Except ε α} {change : ε → σ}
    {error : σ} :
    result.mapError change = .error error ↔
      ∃ cause, result = .error cause ∧ change cause = error := by
  cases result with
  | ok found =>
      constructor
      · rintro ⟨⟩
      · rintro ⟨_, ⟨⟩, _⟩
  | error cause =>
      constructor
      · rintro ⟨⟩
        exact ⟨cause, rfl, rfl⟩
      · rintro ⟨_, ⟨⟩, rfl⟩
        rfl

@[simp] theorem pure_apply (value : α) (state : σ) :
    (pure value : EStateM ε σ α) state = .ok value state := rfl

@[simp] theorem get_apply (state : σ) :
    (get : EStateM ε σ σ) state = .ok state state := rfl

theorem bind_apply (first : EStateM ε σ α) (next : α → EStateM ε σ β)
    (state : σ) :
    (first >>= next) state =
      match first state with
      | .ok value after => next value after
      | .error error after => .error error after := rfl

theorem bind_apply_of_ok {first : EStateM ε σ α} {state after : σ} {value : α}
    (hfirst : first state = .ok value after) (next : α → EStateM ε σ β) :
    (first >>= next) state = next value after := by
  rw [bind_apply, hfirst]

theorem bind_apply_of_error {first : EStateM ε σ α} {state after : σ}
    {error : ε} (hfirst : first state = .error error after)
    (next : α → EStateM ε σ β) :
    (first >>= next) state = .error error after := by
  rw [bind_apply, hfirst]

end TinyCompiler
