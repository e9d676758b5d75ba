import Std.Data.HashMap.Lemmas
import TinyCompiler.SymbolTable

/-!
# Laws of symbol tables

In a table made by taking note of occurrences, the index gives a location for a
name exactly if the entry at that location has the name.  Locations are then
below the size of the table and belong to one name each.  The entries are the
distinct names in the order in which they first occur, and each has the lines of
all the occurrences of its name.
-/

namespace TinyCompiler
namespace SymbolTable

/-- The index and the entries agree. -/
def Lawful (table : SymbolTable) : Prop :=
  ∀ name location, table.location? name = some location ↔
    ∃ symbol, table.entries[location]? = some symbol ∧ symbol.name = name

theorem empty_lawful : Lawful SymbolTable.empty := by
  intro name location
  simp [SymbolTable.empty, location?]

theorem location?_empty (name : String) :
    SymbolTable.empty.location? name = none := by
  simp [SymbolTable.empty, location?]

theorem location?_insert (table : SymbolTable) (name other : String)
    (line : Nat) :
    (table.insert name line).location? other =
      if name = other then some table.size else table.location? other := by
  simp [SymbolTable.insert, location?, Std.HashMap.getElem?_insert]

theorem location?_refer (table : SymbolTable) (location line : Nat)
    (name : String) :
    (table.refer location line).location? name = table.location? name := rfl

theorem Lawful.lt_size {table : SymbolTable} (hlawful : table.Lawful)
    {name : String} {location : Nat}
    (hlocation : table.location? name = some location) :
    location < table.size := by
  obtain ⟨symbol, hsymbol, -⟩ := (hlawful name location).mp hlocation
  obtain ⟨hlt, -⟩ := Array.getElem?_eq_some_iff.mp hsymbol
  exact hlt

theorem Lawful.name_eq {table : SymbolTable} (hlawful : table.Lawful)
    {name other : String} {location : Nat}
    (hname : table.location? name = some location)
    (hother : table.location? other = some location) : name = other := by
  obtain ⟨symbol, hsymbol, hnameEq⟩ := (hlawful name location).mp hname
  obtain ⟨same, hsame, hotherEq⟩ := (hlawful other location).mp hother
  rw [hsymbol] at hsame
  injection hsame with hsame
  rw [← hnameEq, ← hotherEq, hsame]

theorem Lawful.insert {table : SymbolTable} (hlawful : table.Lawful)
    {name : String} (hnew : table.location? name = none) (line : Nat) :
    (table.insert name line).Lawful := by
  intro other location
  have hentries : (table.insert name line).entries[location]? =
      if location = table.size then some ⟨name, table.size, line, []⟩
      else table.entries[location]? := by
    unfold SymbolTable.insert size
    rw [Array.getElem?_push]
  rw [location?_insert, hentries]
  by_cases hlocation : location = table.size
  · subst hlocation
    have hnone : table.location? other ≠ some table.size := by
      intro hsome
      exact absurd (hlawful.lt_size hsome) (Nat.lt_irrefl _)
    by_cases hname : name = other <;> simp [hname, hnone]
  · rw [if_neg hlocation, ← hlawful other location]
    by_cases hname : name = other
    · subst hname
      simp [hnew, Ne.symm hlocation]
    · simp [hname]

theorem Lawful.refer {table : SymbolTable} (hlawful : table.Lawful)
    (location line : Nat) :
    (table.refer location line).Lawful := by
  intro name other
  rw [location?_refer, hlawful name other]
  simp only [SymbolTable.refer, Array.getElem?_modify]
  by_cases hlocation : location = other
  · subst hlocation
    simp only [if_true, Option.map_eq_some_iff]
    constructor
    · rintro ⟨symbol, hsymbol, hname⟩
      exact ⟨_, ⟨symbol, hsymbol, rfl⟩, hname⟩
    · rintro ⟨_, ⟨symbol, hsymbol, rfl⟩, hname⟩
      exact ⟨symbol, hsymbol, hname⟩
  · rw [if_neg hlocation]

theorem Lawful.resolve {table : SymbolTable} (hlawful : table.Lawful)
    (name : String) (line : Nat) : (table.resolve name line).2.Lawful := by
  unfold SymbolTable.resolve
  cases hlocation : table.location? name with
  | some location => exact hlawful.refer location line
  | none => exact hlawful.insert hlocation line

theorem Lawful.resolveAll {table : SymbolTable} (hlawful : table.Lawful)
    (occurrences : List (String × Nat)) :
    (table.resolveAll occurrences).Lawful := by
  induction occurrences generalizing table with
  | nil => exact hlawful
  | cons occurrence rest ih =>
      exact ih (hlawful.resolve occurrence.1 occurrence.2)

theorem resolveAll_lawful (occurrences : List (String × Nat)) :
    (SymbolTable.empty.resolveAll occurrences).Lawful :=
  empty_lawful.resolveAll occurrences

theorem resolveAll_singleton (name : String) (line : Nat) :
    SymbolTable.empty.resolveAll [(name, line)] =
      SymbolTable.empty.insert name line := by
  simp [SymbolTable.resolveAll, SymbolTable.resolve, location?_empty]

theorem location?_resolve_isSome (table : SymbolTable) (name other : String)
    (line : Nat) :
    ((table.resolve name line).2.location? other).isSome ↔
      (table.location? other).isSome ∨ other = name := by
  unfold SymbolTable.resolve
  cases hlocation : table.location? name with
  | some location =>
      simp only [location?_refer]
      constructor
      · exact .inl
      · rintro (hsome | rfl)
        · exact hsome
        · simp [hlocation]
  | none =>
      simp only [location?_insert]
      by_cases hname : name = other
      · simp [hname]
      · simp [hname, Ne.symm hname]

theorem location?_resolveAll_isSome (table : SymbolTable)
    (occurrences : List (String × Nat)) (name : String) :
    ((table.resolveAll occurrences).location? name).isSome ↔
      (table.location? name).isSome ∨ name ∈ occurrences.map Prod.fst := by
  induction occurrences generalizing table with
  | nil => simp [SymbolTable.resolveAll]
  | cons occurrence rest ih =>
      have hstep := ih (table.resolve occurrence.1 occurrence.2).2
      rw [location?_resolve_isSome] at hstep
      rw [List.map_cons, List.mem_cons, ← or_assoc]
      exact hstep

/-! ## What a table records -/

/-- The lines of the occurrences of a name, in order. -/
def linesOf (name : String) (occurrences : List (String × Nat)) : List Nat :=
  (occurrences.filter fun occurrence => occurrence.1 = name).map Prod.snd

section LinesOf

variable (name : String) (occurrences : List (String × Nat))

theorem linesOf_concat (other : String) (line : Nat) :
    linesOf name (occurrences ++ [(other, line)]) =
      linesOf name occurrences ++ if other = name then [line] else [] := by
  by_cases hname : other = name <;> simp [linesOf, hname]

theorem length_linesOf :
    (linesOf name occurrences).length =
    (occurrences.map Prod.fst).count name := by
  rw [linesOf, List.length_map, List.count_eq_length_filter, List.filter_map,
    List.length_map]
  rfl

theorem linesOf_eq_nil {name : String} {occurrences : List (String × Nat)}
    (hname : name ∉ occurrences.map Prod.fst) :
    linesOf name occurrences = [] := by
  rw [← List.length_eq_zero_iff, length_linesOf]
  exact List.count_eq_zero_of_not_mem hname

end LinesOf

theorem eraseDups_concat (names : List String) (name : String) :
    (names ++ [name]).eraseDups =
      names.eraseDups ++ if name ∈ names then [] else [name] := by
  rw [List.eraseDups_append]
  by_cases hname : name ∈ names <;>
    simp [List.removeAll, List.eraseDups_cons, hname]

/-- The table holds the variables of some occurrences: their names in the order
of their first occurrence, at the locations from 0 on, with the lines of all
their occurrences. -/
structure Records (table : SymbolTable)
    (occurrences : List (String × Nat)) : Prop where
  lawful : table.Lawful
  names : table.toList.map Symbol.name = (occurrences.map Prod.fst).eraseDups
  locations : table.toList.map Symbol.location = List.range table.size
  lines : ∀ symbol ∈ table.toList,
    symbol.lines = linesOf symbol.name occurrences

theorem mem_toList_iff {table : SymbolTable} {symbol : Symbol} :
    symbol ∈ table.toList ↔ ∃ location : Nat,
      table.entries[location]? = some symbol := by
  simp only [toList, List.mem_iff_getElem?, Array.getElem?_toList]

theorem Lawful.mem_names_iff {table : SymbolTable} (hlawful : table.Lawful)
    {name : String} :
    name ∈ table.toList.map Symbol.name ↔ (table.location? name).isSome := by
  simp only [List.mem_map, mem_toList_iff,
    Option.isSome_iff_exists, hlawful name]
  exact ⟨fun ⟨symbol, ⟨location, hsymbol⟩, hname⟩ =>
    ⟨location, symbol, hsymbol, hname⟩,
    fun ⟨location, symbol, hsymbol, hname⟩ =>
      ⟨symbol, ⟨location, hsymbol⟩, hname⟩⟩

theorem map_toList_refer (table : SymbolTable) (location line : Nat)
    {view : Symbol → α}
    (hview : ∀ symbol, view (symbol.addReference line) = view symbol) :
    (table.refer location line).toList.map view = table.toList.map view := by
  apply List.ext_getElem?
  intro index
  simp only [toList, refer, List.getElem?_map, Array.getElem?_toList,
    Array.getElem?_modify]
  by_cases hindex : location = index
  · simp [hindex, Function.comp_def, hview]
  · rw [if_neg hindex]

section Records

variable {table : SymbolTable} {occurrences : List (String × Nat)}
  {name : String}

theorem empty_records : Records SymbolTable.empty [] where
  lawful := empty_lawful
  names := rfl
  locations := rfl
  lines := by simp [SymbolTable.empty, toList]

theorem Records.location?_isSome (hrecords : table.Records occurrences) :
    (table.location? name).isSome ↔ name ∈ occurrences.map Prod.fst := by
  rw [← hrecords.lawful.mem_names_iff, hrecords.names, List.mem_eraseDups]

theorem Records.refer (hrecords : table.Records occurrences) {location : Nat}
    (hlocation : table.location? name = some location) (line : Nat) :
    (table.refer location line).Records (occurrences ++ [(name, line)]) where
  lawful := hrecords.lawful.refer location line
  names := by
    have hknown : name ∈ occurrences.map Prod.fst :=
      hrecords.location?_isSome.mp (by rw [hlocation]; rfl)
    rw [map_toList_refer table location line fun _ => rfl, hrecords.names,
      List.map_append, List.map_singleton, eraseDups_concat, if_pos hknown,
      List.append_nil]
  locations := by
    rw [map_toList_refer table location line fun _ => rfl, hrecords.locations]
    simp [SymbolTable.refer, size]
  lines := by
    intro symbol hsymbol
    obtain ⟨other, hentry⟩ := mem_toList_iff.mp hsymbol
    simp only [SymbolTable.refer, Array.getElem?_modify] at hentry
    rw [linesOf_concat]
    by_cases hother : location = other
    · rw [if_pos hother, ← hother, Option.map_eq_some_iff] at hentry
      obtain ⟨old, hold, rfl⟩ := hentry
      obtain ⟨same, hsame, hname⟩ :=
        (hrecords.lawful name location).mp hlocation
      obtain rfl := Option.some.inj (hold.symm.trans hsame)
      have hlines := hrecords.lines old (mem_toList_iff.mpr ⟨location, hold⟩)
      change old.lines ++ [line] = linesOf old.name occurrences ++ _
      rw [hlines, if_pos
        (show name = (old.addReference line).name from hname.symm)]
    · rw [if_neg hother] at hentry
      -- Another entry has another name, as the table finds each name in one
      -- place.
      have hname : name ≠ symbol.name := by
        rintro rfl
        have hsame := (hrecords.lawful _ other).mpr ⟨symbol, hentry, rfl⟩
        exact hother (Option.some.inj (hlocation.symm.trans hsame))
      rw [if_neg hname, List.append_nil]
      exact hrecords.lines symbol (mem_toList_iff.mpr ⟨other, hentry⟩)

theorem Records.insert (hrecords : table.Records occurrences)
    (hnew : table.location? name = none) (line : Nat) :
    (table.insert name line).Records (occurrences ++ [(name, line)]) := by
  have hunknown : name ∉ occurrences.map Prod.fst := by
    rw [← hrecords.location?_isSome, hnew]
    simp
  have htoList : (table.insert name line).toList =
      table.toList ++ [⟨name, table.size, line, []⟩] := Array.toList_push
  refine ⟨hrecords.lawful.insert hnew line, ?_, ?_, ?_⟩
  · rw [htoList, List.map_append, hrecords.names, List.map_append,
      List.map_singleton, List.map_singleton, eraseDups_concat, if_neg hunknown]
  · rw [htoList, List.map_append, hrecords.locations]
    simp [SymbolTable.insert, size, List.range_succ]
  · intro symbol hsymbol
    rw [htoList, List.mem_append, List.mem_singleton] at hsymbol
    rw [linesOf_concat]
    rcases hsymbol with hold | rfl
    · have hname : name ≠ symbol.name := by
        rintro rfl
        have hsome :=
          hrecords.lawful.mem_names_iff.mp (List.mem_map_of_mem hold)
        rw [hnew] at hsome
        cases hsome
      rw [if_neg hname, List.append_nil]
      exact hrecords.lines symbol hold
    · rw [if_pos rfl, linesOf_eq_nil hunknown]
      rfl

theorem Records.resolve (hrecords : table.Records occurrences) (name : String)
    (line : Nat) :
    (table.resolve name line).2.Records (occurrences ++ [(name, line)]) := by
  unfold SymbolTable.resolve
  cases hlocation : table.location? name with
  | some location => exact hrecords.refer hlocation line
  | none => exact hrecords.insert hlocation line

theorem Records.resolveAll (hrecords : table.Records occurrences)
    (later : List (String × Nat)) :
    (table.resolveAll later).Records (occurrences ++ later) := by
  induction later generalizing table occurrences with
  | nil => rwa [List.append_nil]
  | cons occurrence rest ih =>
      have hrest := ih (hrecords.resolve occurrence.1 occurrence.2)
      rwa [List.append_assoc] at hrest

theorem resolveAll_records (occurrences : List (String × Nat)) :
    (SymbolTable.empty.resolveAll occurrences).Records occurrences :=
  empty_records.resolveAll occurrences

end Records

end SymbolTable
end TinyCompiler
