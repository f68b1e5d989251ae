import Wayfarer.LogFilter.Pattern.Atom

/-!
# Classes of characters in brackets

A class in brackets lists its members: characters, ranges of them, families,
classes given by name, and other classes in brackets. Two lists are combined by
`&&`, `--` or `~~`, from left to right.

* `Mode.bracketed` reads a class and tells how deep its parts are nested.
-/

namespace Wayfarer.LogFilter.Pattern

/-- The names of classes that can be given inside brackets. -/
def classNames : List String :=
  ["alnum", "alpha", "ascii", "blank", "cntrl", "digit", "graph", "lower", "print", "punct",
   "space", "upper", "word", "xdigit"]

/-- A class given by its name, if there is one behind the bracket: whether all
other characters are meant, and the text after it. -/
def namedClass? : List Char → Option (Bool × List Char)
  | ':' :: rest =>
    let negated := rest.head? = some '^'
    let rest := if negated then rest.drop 1 else rest
    let name := rest.takeWhile (·.isAlpha)
    match rest.drop name.length with
    | ':' :: ']' :: rest =>
      if classNames.contains (String.ofList name) then some (negated, rest) else none
    | _ => none
  | _ => none

/-! ## Members -/

/-- One member of a class, with its code if it is a single character, and the
text after it. -/
def Mode.member (m : Mode) : List Char → Option (Option Nat × List Char)
  | [] => none
  | '\\' :: rest => do
    match ← m.escape rest with
    | (.literal code, rest) | (.short code, rest) => some (some code, rest)
    | (.family negated, rest) => if m.allows (.family negated) then some (none, rest) else none
    | _ => none
  | c :: rest => some (some c.toNat, rest)

/-- Whether a character may be a member of a class: where letters are compared
without case none can, and a part that is read byte by byte knows only those of
one byte. -/
def Mode.holds (m : Mode) (code : Nat) : Bool := !m.folds && (m.unicode || code < 0x80)

/-- The text after one member of a class or a range of them, whose ends must be
in order. A dash before the end of the list or before another dash makes no
range. -/
def Mode.members (m : Mode) (cs : List Char) : Option (List Char) := do
  let (first, rest) ← m.member cs
  let alone := if first.all m.holds then some (m.skip rest) else none
  match m.skip rest with
  | '-' :: behind =>
    if m.peek behind = some ']' || m.peek behind = some '-' then alone
    else
      match first, ← m.member (m.skip behind) with
      | some a, (some b, rest) => if m.holds a && m.holds b && a ≤ b then some rest else none
      | _, _ => none
  | _ => alone

/-! ## Lists of members -/

/-- A class that was opened and not closed: how deep the lists before the last
operator are nested, if there is an operator, and how deep the members after it
are. -/
structure Bracket where
  before : Option Nat
  depths : List Nat

/-- How deep the parts of a class are nested. -/
def Bracket.depth (b : Bracket) : Nat :=
  match b.before with
  | none => depthTogether b.depths
  | some before => 1 + max before (depthTogether b.depths)

/-- The class with one more member. -/
def Bracket.add (b : Bracket) (depth : Nat) : Bracket := { b with depths := depth :: b.depths }

/-- The class after an operator. -/
def Bracket.combine (b : Bracket) : Bracket := ⟨some b.depth, []⟩

/-- The number of dashes at the start of a text, at most the given one, and the
text after them. -/
def Mode.dashes (m : Mode) : Nat → List Char → Nat × List Char
  | most + 1, '-' :: rest =>
    let (count, rest) := m.dashes most (m.skip rest)
    (count + 1, rest)
  | _, cs => (0, cs)

/-- A class behind its opening bracket, and the text after what may stand only
at its start: a caret, dashes, or a closing bracket. All but the caret are
members. -/
def Mode.openBracket (m : Mode) (cs : List Char) : Option (Bracket × List Char) :=
  let cs := m.skip cs
  let negated := cs.head? = some '^'
  let cs := if negated then m.skip (cs.drop 1) else cs
  let (count, rest) := m.dashes cs.length cs
  let (count, rest) :=
    if count = 0 && rest.head? = some ']' then (1, m.skip (rest.drop 1)) else (count, rest)
  if (negated && !m.unicode) || (0 < count && m.folds) then none
  else some (⟨none, List.replicate count 0⟩, rest)

/-- How deep a class is nested, and the text after it. The innermost of the open
classes is `inner`, and `outer` are those around it. -/
def Mode.classRest (m : Mode) :
    Nat → Bracket → List Bracket → List Char → Option (Nat × List Char)
  | 0, _, _, _ => none
  | fuel + 1, inner, outer, cs =>
    match m.skip cs with
    | [] => none
    | '[' :: rest =>
      match namedClass? rest with
      | some (negated, rest) =>
        if m.folds || (negated && !m.unicode) then none
        else m.classRest fuel (inner.add 0) outer rest
      | none => do
        let (nested, rest) ← m.openBracket rest
        m.classRest fuel nested (inner :: outer) rest
    | ']' :: rest =>
      match outer with
      | [] => some (1 + inner.depth, rest)
      | around :: outer => m.classRest fuel (around.add (1 + inner.depth)) outer rest
    | '&' :: '&' :: rest => m.classRest fuel inner.combine outer rest
    | '-' :: '-' :: rest => m.classRest fuel inner.combine outer rest
    | '~' :: '~' :: rest => m.classRest fuel inner.combine outer rest
    | cs => (m.members cs).bind (m.classRest fuel (inner.add 0) outer)

/-- How deep a class is nested whose opening bracket was passed, and the text
after it. -/
def Mode.bracketed (m : Mode) (cs : List Char) : Option (Nat × List Char) := do
  let (bracket, rest) ← m.openBracket cs
  m.classRest (cs.length + 1) bracket [] rest

end Wayfarer.LogFilter.Pattern
