/-!
# Lines and reading positions

A line ends at a line feed.  One carriage return directly before the line feed
belongs to the line end, and a final line feed opens no further line.

A place in a text is counted in the bytes of its UTF-8 form.  A position between
the bytes of one character, or behind the end, has no text after it.
-/

namespace TinyCompiler.Text

/-! ## Lines -/

def lines : List Char → List (List Char)
  | [] => []
  | '\n' :: rest => [] :: lines rest
  | '\r' :: '\n' :: rest => [] :: lines rest
  | c :: rest =>
      match lines rest with
      | [] => [[c]]
      | first :: others => (c :: first) :: others

/-- How many line feeds a text holds. -/
def lineFeeds (text : List Char) : Nat :=
  text.count '\n'

/-! ## Reading positions -/

/-- The text behind its first bytes, if they make up whole characters. -/
def dropBytes? : Nat → List Char → Option (List Char)
  | 0, text => some text
  | _ + 1, [] => none
  | count + 1, c :: rest =>
      if c.utf8Size ≤ count + 1 then
        dropBytes? (count + 1 - c.utf8Size) rest
      else none

structure Position where
  source : String
  offset : Nat
  deriving DecidableEq, Repr

namespace Position

def start (source : String) : Position where
  source := source
  offset := 0

def advance (position : Position) (count : Nat) : Position :=
  { position with offset := position.offset + count }

def atEnd (position : Position) : Bool :=
  position.source.utf8ByteSize ≤ position.offset

/-- The text from the position on. -/
def remainder? (position : Position) : Option (List Char) :=
  dropBytes? position.offset position.source.toList

/-- The character at the position; NUL at the end. -/
def current? (position : Position) : Option Char :=
  position.remainder?.map fun rest => rest.headD '\x00'

end Position

end TinyCompiler.Text
