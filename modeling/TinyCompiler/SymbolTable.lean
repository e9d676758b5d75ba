import Std.Data.HashMap
import TinyCompiler.Text.Layout

/-!
# Symbol table

The variables of a program in the order in which they are first seen.  A
variable keeps the memory location it gets then, and the table remembers the
line of every occurrence.  An index from names to locations stands beside the
entries.
-/

namespace TinyCompiler

structure Symbol where
  name : String
  location : Nat
  firstLine : Nat
  /-- The lines of the later occurrences, in order. -/
  references : List Nat
  deriving DecidableEq, Repr

def Symbol.lines (symbol : Symbol) : List Nat :=
  symbol.firstLine :: symbol.references

def Symbol.addReference (line : Nat) (symbol : Symbol) : Symbol :=
  { symbol with references := symbol.references ++ [line] }

structure SymbolTable where
  index : Std.HashMap String Nat
  entries : Array Symbol

namespace SymbolTable

def empty : SymbolTable where
  index := ∅
  entries := #[]

def size (table : SymbolTable) : Nat :=
  table.entries.size

def toList (table : SymbolTable) : List Symbol :=
  table.entries.toList

def location? (table : SymbolTable) (name : String) : Option Nat :=
  table.index[name]?

def get? (table : SymbolTable) (name : String) : Option Symbol :=
  (table.location? name).bind fun location => table.entries[location]?

/-- A table with one more variable, at the next free location. -/
def insert (table : SymbolTable) (name : String) (line : Nat) :
    SymbolTable where
  index := table.index.insert name table.size
  entries := table.entries.push ⟨name, table.size, line, []⟩

/-- A table with one more occurrence of the variable at a location. -/
def refer (table : SymbolTable) (location line : Nat) : SymbolTable :=
  { table with entries :=
    table.entries.modify location (Symbol.addReference line) }

/-- Takes note of an occurrence of a name and gives the location of the
variable. -/
def resolve (table : SymbolTable) (name : String) (line : Nat) :
    Nat × SymbolTable :=
  match table.location? name with
  | some location => (location, table.refer location line)
  | none => (table.size, table.insert name line)

def resolveAll (table : SymbolTable) (occurrences : List (String × Nat)) :
    SymbolTable :=
  occurrences.foldl
    (fun table occurrence => (table.resolve occurrence.1 occurrence.2).2) table

def row (symbol : Symbol) : String :=
  Text.alignLeft 14 symbol.name ++ " " ++
    Text.alignLeft 8 (toString symbol.location) ++ "  " ++
    String.join (symbol.lines.map fun line =>
      Text.alignRight 4 (toString line) ++ " ") ++ "\n"

/-- Two lines of headings and one row for each variable. -/
def listing (table : SymbolTable) : String :=
  "Variable Name  Location   Line Numbers\n" ++
  "-------------  --------   ------------\n" ++
  String.join (table.toList.map row)

end SymbolTable

end TinyCompiler
