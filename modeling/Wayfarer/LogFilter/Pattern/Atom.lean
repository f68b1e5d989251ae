import Wayfarer.Text.CharClass
import Wayfarer.Text.Decimal

/-!
# The atoms of patterns

How a part of a pattern is read, what may stand between its signs, and what an
escape stands for.

A pattern is read as text of any script, but no tables of scripts are at hand.
So families of characters (`\d`), word boundaries and the comparison without
case are there only in a part of the pattern that is read byte by byte
(`(?-u:…)`), and such a part must not match half a character.
-/

namespace Wayfarer.LogFilter.Pattern

/-- How a part of a pattern is read. -/
structure Mode where
  insensitive : Bool
  unicode : Bool
  verbose : Bool

/-- How a pattern is read unless it says otherwise. -/
def Mode.initial : Mode := ⟨false, true, false⟩

/-- Whether letters are compared without case, which takes a table. -/
def Mode.folds (m : Mode) : Bool := m.insensitive && m.unicode

/-! ## Blanks and comments -/

/-- The text after blanks and comments. A comment goes from `#` to the end of
its line; `comment` tells whether the text starts inside one. -/
def afterGap ( comment : Bool) : List Char → List Char
  | [] => []
  | c :: rest =>
    if comment then afterGap (c != '\n') rest
    else if Text.isBlank c then afterGap false rest
    else if c = '#' then afterGap true rest
    else c :: rest

/-- The text after what a mode passes over between two signs. -/
def Mode.skip (m : Mode) (cs : List Char) : List Char :=
  if m.verbose then afterGap false cs else cs

/-- The next character that is looked at behind a dash. Where blanks are passed
over, so is one `#`, but not the comment that it starts; behind blanks only, it
is the first of them. -/
def Mode.peek (m : Mode) (cs : List Char) : Option Char :=
  if m.verbose then
    let shown := cs.dropWhile Text.isBlank
    let shown := if shown.head? = some '#' then (shown.drop 1).dropWhile Text.isBlank else shown
    shown.head?.or cs.head?
  else cs.head?

/-! ## Escapes -/

/-- What an escape stands for. -/
inductive Atom
  /-- A character. -/
  | literal (code : Nat)
  /-- A character or byte given by two hexadecimal digits. -/
  | short (code : Nat)
  /-- A family of characters, or all others. -/
  | family (negated : Bool)
  /-- The start or end of a word. -/
  | boundary
  /-- The start or end of the text. -/
  | margin

/-- Whether an escape may stand where the pattern is read in some mode. -/
def Mode.allows (m : Mode) : Atom → Bool
  | .literal _ => !m.folds
  | .short code => !m.folds && (m.unicode || code < 0x80)
  | .family negated => !m.unicode && !negated
  | .boundary => !m.unicode
  | .margin => true

/-- The value of a hexadecimal digit. -/
def hex? (c : Char) : Option Nat :=
  if '0' ≤ c ∧ c ≤ '9' then some (c.toNat - '0'.toNat)
  else if 'a' ≤ c ∧ c ≤ 'f' then some (c.toNat - 'a'.toNat + 10)
  else if 'A' ≤ c ∧ c ≤ 'F' then some (c.toNat - 'A'.toNat + 10)
  else none

/-- The number of so many hexadecimal digits behind `code`, and the text after
them. What a mode passes over may stand before each digit. -/
def Mode.hexDigits (m : Mode) : Nat → Nat → List Char → Option (Nat × List Char)
  | 0, code, cs => some (code, cs)
  | width + 1, code, cs =>
    match m.skip cs with
    | [] => none
    | c :: rest => (hex? c).bind fun digit => m.hexDigits width (16 * code + digit) rest

/-- The character with so many hexadecimal digits, and the text after them. -/
def Mode.hexCode (m : Mode) (width : Nat) (cs : List Char) : Option (Nat × List Char) :=
  (m.hexDigits width 0 cs).filter fun (code, _) => (Char.ofNat code).toNat = code

/-- What follows a backslash, and the text after it. -/
def Mode.escape (m : Mode) : List Char → Option (Atom × List Char)
  | [] => none
  | c :: rest =>
    match c with
    | 'x' => (m.hexCode 2 rest).map fun (code, rest) => (.short code, rest)
    | 'u' => (m.hexCode 4 rest).map fun (code, rest) => (.literal code, rest)
    | 'U' => (m.hexCode 8 rest).map fun (code, rest) => (.literal code, rest)
    | 'd' | 's' | 'w' => some (.family false, rest)
    | 'D' | 'S' | 'W' => some (.family true, rest)
    | 'a' => some (.literal 7, rest)
    | 't' => some (.literal 9, rest)
    | 'n' => some (.literal 10, rest)
    | 'v' => some (.literal 11, rest)
    | 'f' => some (.literal 12, rest)
    | 'r' => some (.literal 13, rest)
    | 'A' | 'z' => some (.margin, rest)
    | 'b' | 'B' | '<' | '>' => some (.boundary, rest)
    | c => if c.toNat < 0x80 && !c.isAlphanum then some (.literal c.toNat, rest) else none

/-! ## Depth -/

/-- How deep parts are nested that stand beside each other: one that stands
alone adds no level. -/
def depthTogether : List Nat → Nat
  | [] => 0
  | [depth] => depth
  | depths => 1 + depths.foldl max 0

/-- How deep a part of a pattern may be nested. -/
def deepest : Nat := 250

end Wayfarer.LogFilter.Pattern
