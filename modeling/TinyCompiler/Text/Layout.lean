/-!
# White space and columns

The characters with the Unicode property `White_Space`, and the two things a
program does with them: it cuts a text into words, and it drops what trails.
White space also sets texts in columns of a fixed width.  A width counts
characters, and a text that is wider than its column is never cut.
-/

namespace TinyCompiler.Text

/-! ## White space -/

/-- The code points with the property `White_Space`, as closed ranges. -/
def blankRanges : List (Nat × Nat) :=
  [(0x09, 0x0d), (0x20, 0x20), (0x85, 0x85), (0xa0, 0xa0), (0x1680, 0x1680),
    (0x2000, 0x200a), (0x2028, 0x2029), (0x202f, 0x202f), (0x205f, 0x205f),
    (0x3000, 0x3000)]

def isBlank (c : Char) : Bool :=
  blankRanges.any fun range => range.1 ≤ c.toNat && c.toNat ≤ range.2

def trimEnd (text : List Char) : List Char :=
  (text.reverse.dropWhile isBlank).reverse

/-- The longest runs of characters that are not white space, in order. -/
def words (text : List Char) : List (List Char) :=
  match _h : text.dropWhile isBlank with
  | [] => []
  | c :: rest =>
      (c :: rest.takeWhile (fun d => !isBlank d)) ::
        words (rest.dropWhile fun d => !isBlank d)
termination_by text.length
decreasing_by
  have hfirst : (text.dropWhile isBlank).length ≤ text.length :=
    (List.dropWhile_sublist _).length_le
  have hsecond : (rest.dropWhile fun d => !isBlank d).length ≤ rest.length :=
    (List.dropWhile_sublist _).length_le
  rw [_h] at hfirst
  simp only [List.length_cons] at hfirst
  omega

/-! ## Columns -/

def spaces (count : Nat) : String :=
  String.ofList (List.replicate count ' ')

/-- The text at the right end of a column. -/
def alignRight (width : Nat) (text : String) : String :=
  spaces (width - text.length) ++ text

/-- The text at the left end of a column. -/
def alignLeft (width : Nat) (text : String) : String :=
  text ++ spaces (width - text.length)

end TinyCompiler.Text
