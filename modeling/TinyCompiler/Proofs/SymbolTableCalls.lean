import TinyCompiler.Proofs.SymbolTableLaws

/-!
# Calls on a symbol table

Names are resolved and looked up on one table in any order.  The table is at
every moment the one of the occurrences resolved so far, and so is every answer
it gives: looking a name up leaves no trace, and a location once given stays
with its name.
-/

namespace TinyCompiler

/-- The variable of a name whose occurrences are on these lines. -/
def Symbol.ofLines? (name : String) (location : Nat) : List Nat → Option Symbol
  | [] => none
  | first :: later => some ⟨name, location, first, later⟩

theorem Symbol.ofLines?_lines (symbol : Symbol) :
    Symbol.ofLines? symbol.name symbol.location symbol.lines =
      some symbol := rfl

namespace SymbolTable

inductive Call where
  | resolve (name : String) (line : Nat)
  | locationOf (name : String)
  | get (name : String)
  deriving DecidableEq, Repr

inductive Answer where
  | resolved (location : Nat)
  | location (found : Option Nat)
  | symbol (found : Option Symbol)
  deriving DecidableEq, Repr

/-- The answer to a call, and the table behind it. -/
def perform (table : SymbolTable) : Call → Answer × SymbolTable
  | .resolve name line =>
      let (location, after) := table.resolve name line
      (.resolved location, after)
  | .locationOf name => (.location (table.location? name), table)
  | .get name => (.symbol (table.get? name), table)

/-- The table behind calls, one after the other. -/
def performAll (table : SymbolTable) (calls : List Call) : SymbolTable :=
  calls.foldl (fun table call => (table.perform call).2) table

/-! ## What occurrences determine -/

def Call.occurrence? : Call → Option (String × Nat)
  | .resolve name line => some (name, line)
  | .locationOf _ | .get _ => none

/-- The names of some occurrences, each once, in the order of their first
one. -/
def distinctNames (occurrences : List (String × Nat)) : List String :=
  (occurrences.map Prod.fst).eraseDups

/-- The variable that is to stand at a location when it has this name. -/
def entryOf? (occurrences : List (String × Nat)) (location : Nat)
    (name : String) :
    Option Symbol :=
  Symbol.ofLines? name location (linesOf name occurrences)

/-- The answer that a call is to get when these occurrences have been
resolved. -/
def Call.answer (occurrences : List (String × Nat)) : Call → Answer
  | .resolve name line =>
      .resolved ((distinctNames (occurrences ++ [(name, line)])).idxOf name)
  | .locationOf name => .location ((distinctNames occurrences).idxOf? name)
  | .get name =>
      .symbol (((distinctNames occurrences).idxOf? name).bind fun location =>
        entryOf? occurrences location name)

/-! ## Tables and occurrences -/

theorem Lawful.location?_eq_some_iff {table : SymbolTable}
    (hlawful : table.Lawful) {name : String} {location : Nat} :
    table.location? name = some location ↔
      (table.toList.map Symbol.name)[location]? = some name := by
  rw [hlawful name location, List.getElem?_map, Option.map_eq_some_iff]
  simp only [toList, Array.getElem?_toList]

theorem Lawful.idxOf?_names {table : SymbolTable} (hlawful : table.Lawful)
    (name : String) :
    (table.toList.map Symbol.name).idxOf? name = table.location? name := by
  cases hlocation : table.location? name with
  | none =>
      rw [List.idxOf?_eq_none_iff, hlawful.mem_names_iff, hlocation]
      simp
  | some location =>
      obtain ⟨hlt, hname⟩ :=
        List.getElem?_eq_some_iff.mp
          (hlawful.location?_eq_some_iff.mp hlocation)
      refine List.idxOf?_eq_some_iff.mpr ⟨hlt, hname, ?_⟩
      -- An earlier entry of the same name would be where the index finds the
      -- name.
      intro earlier hearlier hsame
      have hfound := hlawful.location?_eq_some_iff.mpr
        (List.getElem?_eq_some_iff.mpr ⟨Nat.lt_trans hearlier hlt, hsame⟩)
      rw [hlocation] at hfound
      exact absurd (Option.some.inj hfound) (Nat.ne_of_gt hearlier)

theorem idxOf_of_idxOf? {names : List String} {name : String} {location : Nat}
    (hlocation : names.idxOf? name = some location) :
    names.idxOf name = location := by
  have hfound : names.findIdx? (· == name) = some location := hlocation
  rw [List.idxOf, List.findIdx_eq_getD_findIdx?, hfound, Option.getD_some]

section Records

variable {table : SymbolTable} {occurrences : List (String × Nat)}

theorem Records.location?_eq (hrecords : table.Records occurrences)
    (name : String) :
    table.location? name = (distinctNames occurrences).idxOf? name := by
  rw [← hrecords.lawful.idxOf?_names, hrecords.names]
  rfl

theorem Records.location_eq (hrecords : table.Records occurrences)
    {location : Nat} {symbol : Symbol}
    (hsymbol : table.entries[location]? = some symbol) :
    symbol.location = location := by
  have hplace : (table.toList.map Symbol.location)[location]? =
      some symbol.location := by
    rw [List.getElem?_map, toList, Array.getElem?_toList, hsymbol,
      Option.map_some]
  rw [hrecords.locations, List.getElem?_eq_some_iff] at hplace
  obtain ⟨hlt, hequal⟩ := hplace
  rw [List.getElem_range] at hequal
  exact hequal.symm

/-- Each entry is the one that the occurrences make of its name and location. -/
theorem Records.entryOf?_eq (hrecords : table.Records occurrences)
    {location : Nat} {symbol : Symbol}
    (hsymbol : table.entries[location]? = some symbol) :
    entryOf? occurrences location symbol.name = some symbol := by
  have hlines := hrecords.lines symbol (mem_toList_iff.mpr ⟨location, hsymbol⟩)
  rw [entryOf?, ← hlines, ← hrecords.location_eq hsymbol, Symbol.ofLines?_lines]

theorem Records.entries_eq (hrecords : table.Records occurrences) :
    table.toList.map some =
      (distinctNames occurrences).mapIdx (entryOf? occurrences) := by
  apply List.ext_getElem?
  intro location
  have hnames : (distinctNames occurrences)[location]? =
      (table.entries[location]?).map Symbol.name := by
    rw [distinctNames, ← hrecords.names, List.getElem?_map, toList,
      Array.getElem?_toList]
  rw [List.getElem?_map, List.getElem?_mapIdx, hnames, toList,
    Array.getElem?_toList, Option.map_map]
  cases hsymbol : table.entries[location]? with
  | none => rfl
  | some symbol => exact congrArg some (hrecords.entryOf?_eq hsymbol).symm

theorem Records.get?_eq (hrecords : table.Records occurrences) (name : String) :
    table.get? name =
      ((distinctNames occurrences).idxOf? name).bind fun location =>
        entryOf? occurrences location name := by
  rw [← hrecords.location?_eq name, get?]
  cases hlocation : table.location? name with
  | none => rfl
  | some location =>
      obtain ⟨symbol, hsymbol, rfl⟩ :=
        (hrecords.lawful name location).mp hlocation
      rw [Option.bind_some, Option.bind_some,
        hrecords.entryOf?_eq hsymbol, hsymbol]

end Records

/-! ## Single calls -/

/-- A name has the location that resolving it gives. -/
theorem location?_resolve_self (table : SymbolTable) (name : String)
    (line : Nat) :
    (table.resolve name line).2.location? name = some
    (table.resolve name line).1 := by
  unfold resolve
  cases hlocation : table.location? name with
  | some location => exact hlocation
  | none => simp [location?_insert]

theorem location?_resolve_of_some {table : SymbolTable} {name : String}
    {location : Nat} (hlocation : table.location? name = some location)
    (other : String) (line : Nat) :
    (table.resolve other line).2.location? name = some location := by
  unfold resolve
  cases hother : table.location? other with
  | some found => exact hlocation
  | none =>
      have hne : other ≠ name := by
        rintro rfl
        rw [hlocation] at hother
        contradiction
      simp [location?_insert, hne, hlocation]

theorem location?_performAll {table : SymbolTable} {name : String}
    {location : Nat} (hlocation : table.location? name = some location)
    (calls : List Call) :
    (table.performAll calls).location? name = some location := by
  induction calls generalizing table with
  | nil => exact hlocation
  | cons call rest ih =>
      apply ih
      cases call with
      | resolve other line =>
          exact location?_resolve_of_some hlocation other line
      | locationOf other => exact hlocation
      | get other => exact hlocation

theorem performAll_eq_resolveAll (table : SymbolTable) (calls : List Call) :
    table.performAll calls =
      table.resolveAll (calls.filterMap Call.occurrence?) := by
  induction calls generalizing table with
  | nil => rfl
  | cons call rest ih =>
      have hstep : table.performAll (call :: rest) =
        (table.perform call).2.performAll rest := rfl
      rw [hstep, ih]
      cases call <;> rfl

theorem performAll_append (table : SymbolTable) (calls more : List Call) :
    table.performAll (calls ++ more) =
      (table.performAll calls).performAll more :=
  List.foldl_append

theorem performAll_records (calls : List Call) :
    (SymbolTable.empty.performAll calls).Records
    (calls.filterMap Call.occurrence?) := by
  rw [performAll_eq_resolveAll]
  exact resolveAll_records _

theorem Records.perform_fst {table : SymbolTable}
    {occurrences : List (String × Nat)} (hrecords : table.Records occurrences)
    (call : Call) :
    (table.perform call).1 = call.answer occurrences := by
  cases call with
  | resolve name line =>
      have hlocation := location?_resolve_self table name line
      rw [(hrecords.resolve name line).location?_eq name] at hlocation
      exact congrArg Answer.resolved (idxOf_of_idxOf? hlocation).symm
  | locationOf name =>
      exact congrArg Answer.location (hrecords.location?_eq name)
  | get name => exact congrArg Answer.symbol (hrecords.get?_eq name)

/-! ## Any calls -/

/-- Calls on the empty table leave the table of the occurrences among them: its
entries are the distinct names in the order in which they were first resolved,
each at its place with the lines of its occurrences.  Every further call gets
its answer from those occurrences.  The index finds a name exactly where the
entries have it, never beyond them, and the location that resolving a name gives
is the one its entry keeps. -/
theorem calls_answered_from_occurrences (calls : List Call) :
    let table := SymbolTable.empty.performAll calls
    let occurrences := calls.filterMap Call.occurrence?
    table.toList.map some =
      (distinctNames occurrences).mapIdx (entryOf? occurrences) ∧
      table = SymbolTable.empty.resolveAll occurrences ∧
      (∀ call, (table.perform call).1 = call.answer occurrences) ∧
      (∀ name location, table.location? name = some location ↔
        ∃ symbol, table.entries[location]? = some symbol ∧ symbol.name = name) ∧
      (∀ name location, table.location? name = some location →
        location < table.size ∧ table.get? name = table.entries[location]?) ∧
      ∀ name line more,
        let location := (table.resolve name line).1
        let later := (table.resolve name line).2.performAll more
        later.location? name = some location ∧
          ∃ symbol, later.get? name = some symbol ∧ symbol.name = name ∧
            symbol.location = location := by
  intro table occurrences
  have hrecords : table.Records occurrences := performAll_records calls
  refine ⟨hrecords.entries_eq, performAll_eq_resolveAll _ calls,
    hrecords.perform_fst, hrecords.lawful, ?_, ?_⟩
  · intro name location hlocation
    refine ⟨hrecords.lawful.lt_size hlocation, ?_⟩
    rw [get?, hlocation, Option.bind_some]
  · intro name line more location later
    have hlater : later.Records _ :=
      performAll_append _ calls (.resolve name line :: more) ▸
        performAll_records _
    have hlocation : later.location? name = some location :=
      location?_performAll (location?_resolve_self table name line) more
    obtain ⟨symbol, hsymbol, hname⟩ :=
      (hlater.lawful name location).mp hlocation
    refine ⟨hlocation, symbol, ?_, hname, hlater.location_eq hsymbol⟩
    rw [get?, hlocation, Option.bind_some, hsymbol]

end SymbolTable
end TinyCompiler
