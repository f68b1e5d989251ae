/-!
# Parts of a text

A text between the marks that divide it, and what stands between two positions
in it. Positions count the bytes before a character.
-/

namespace Wayfarer.Text

/-- The parts of a text between the marks `c`; there is one more of them than
there are marks. -/
def parts (c : Char) : List Char → List (List Char)
  | [] => [[]]
  | d :: rest =>
    if d = c then [] :: parts c rest
    else
      match parts c rest with
      | [] => [[d]]
      | part :: more => (d :: part) :: more

/-! ## Positions -/

/-- The characters of a text with their positions, of which the first is
given. -/
def placed (first : Nat) : List Char → List (Nat × Char)
  | [] => []
  | c :: rest => (first, c) :: placed (first + c.utf8Size) rest

/-- The text from a position on. -/
def fromPosition (n : Nat) (text : List Char) : List Char :=
  ((placed 0 text).dropWhile (·.1 < n)).map (·.2)

/-- The text from one position to another. -/
def between (first last : Nat) (text : List Char) : List Char :=
  ((placed 0 text).filter fun (i, _) => first ≤ i && i < last).map (·.2)

end Wayfarer.Text
