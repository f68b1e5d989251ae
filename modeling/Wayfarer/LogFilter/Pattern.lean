import Wayfarer.LogFilter.Pattern.Bracketed

/-!
# Patterns

A field of a span can be compared with a pattern, which is a regular expression.
Nothing is matched here: `Pattern.isValid` tells whether a text is a pattern.
Repetition counts in braces are not part of the language, and its parts may be
nested `Pattern.deepest` levels deep.
-/

namespace Wayfarer.LogFilter.Pattern

/-! ## Groups -/

/-- What an opening parenthesis begins: a group with its mode and its name, or a
change of mode. -/
inductive Opening
  | group (mode : Mode) (name : Option String)
  | change (mode : Mode)

/-- Whether a text can be the name of a group. -/
def isName : List Char → Bool
  | [] => false
  | c :: rest =>
    (c == '_' || Text.isLetter c) &&
      rest.all fun c => ['_', '.', '[', ']'].contains c || Text.isLetterOrNumber c

/-- A group with a name. -/
def namedGroup (m : Mode) (cs : List Char) : Option (Opening × List Char) :=
  let name := cs.takeWhile (· != '>')
  if isName name && name.length < cs.length then
    some (.group m (some (String.ofList name)), cs.drop (name.length + 1))
  else none

/-- The mode after flags. Those behind a dash are taken away. -/
def Mode.change (m : Mode) (flags : List Char) : Mode :=
  let given := flags.takeWhile (· != '-')
  let taken := flags.drop given.length
  let set (flag : Char) (before : Bool) : Bool :=
    given.contains flag || (before && !taken.contains flag)
  ⟨set 'i' m.insensitive, set 'u' m.unicode, set 'x' m.verbose⟩

/-- Whether a text is a list of flags: each at most once, and one at least
behind a dash. -/
def isFlags (flags : List Char) : Bool :=
  flags.all (['-', 'i', 'm', 's', 'U', 'u', 'R', 'x'].contains ·) && flags.eraseDups == flags &&
    flags.getLast? != some '-'

/-- What begins behind an opening parenthesis, and the text after it. -/
def opening (m : Mode) : List Char → Option (Opening × List Char)
  | '?' :: 'P' :: '<' :: rest => namedGroup m rest
  | '?' :: '<' :: rest => namedGroup m rest
  | '?' :: rest =>
    let flags := rest.takeWhile fun c => c != ':' && c != ')'
    if !isFlags flags then none
    else
      match rest.drop flags.length with
      | ':' :: rest => some (.group (m.change flags) none, rest)
      | ')' :: rest => if flags.isEmpty then none else some (.change (m.change flags), rest)
      | _ => none
  | rest => some (.group m none, rest)

/-! ## Whole patterns -/

/-- One part of a sequence: how deep its own parts are nested, or a change of
mode, which cannot be repeated. -/
inductive Part
  | item (depth : Nat)
  | change

/-- How deep the parts of a part are nested. -/
def Part.depth : Part → Nat
  | .item depth => depth
  | .change => 0

/-- A list of choices that is being read: how deep those before are nested, and
the parts of the last one, latest first. -/
structure Choices where
  before : List Nat
  parts : List Part

/-- Choices before anything was read. -/
def Choices.empty : Choices := ⟨[], []⟩

/-- The choices with the last one closed. -/
def Choices.next (c : Choices) : Choices :=
  ⟨depthTogether (c.parts.map Part.depth) :: c.before, []⟩

/-- How deep the choices are nested. -/
def Choices.depth (c : Choices) : Nat := depthTogether c.next.before

/-- The choices with one more part of the last one. -/
def Choices.add (c : Choices) (part : Part) : Choices := { c with parts := part :: c.parts }

/-- The choices with the latest part repeated. -/
def Choices.repeat? (c : Choices) : Option Choices :=
  match c.parts with
  | .item depth :: parts => some { c with parts := .item (depth + 1) :: parts }
  | _ => none

/-- The state between two items: how the pattern is read, the choices in the
innermost group, the mode and the choices around each open group, and the names
of groups so far. -/
structure State where
  mode : Mode
  choices : Choices
  outer : List (Mode × Choices)
  names : List String

/-- The state after an item. -/
def State.item (s : State) (depth : Nat) : State :=
  { s with choices := s.choices.add (.item depth) }

/-- The state and the text after an opening parenthesis. -/
def State.open? (s : State) (cs : List Char) : Option (State × List Char) :=
  match opening s.mode (s.mode.skip cs) with
  | none => none
  | some (.change mode, rest) =>
    some ({ s with mode := mode, choices := s.choices.add .change }, rest)
  | some (.group mode name, rest) =>
    if name.any s.names.contains then none
    else some (⟨mode, Choices.empty, (s.mode, s.choices) :: s.outer, name.toList ++ s.names⟩, rest)

/-- The state after a closing parenthesis. -/
def State.close? (s : State) : Option State :=
  match s.outer with
  | [] => none
  | (mode, choices) :: outer =>
    some ⟨mode, choices.add (.item (1 + s.choices.depth)), outer, s.names⟩

/-- The state and the text after the next item. -/
def State.next? (s : State) (c : Char) (rest : List Char) : Option (State × List Char) :=
  match c with
  | '(' => s.open? rest
  | ')' => s.close?.map (·, rest)
  | '|' => some ({ s with choices := s.choices.next }, rest)
  | '[' => (s.mode.bracketed rest).map fun (depth, rest) => (s.item depth, rest)
  | '?' | '*' | '+' =>
    s.choices.repeat?.map fun choices =>
      ({ s with choices := choices }, if rest.head? = some '?' then rest.drop 1 else rest)
  | '\x7b' => none
  | '\\' => do
    let (atom, rest) ← s.mode.escape rest
    if s.mode.allows atom then some (s.item 0, rest) else none
  | '.' => if s.mode.unicode then some (s.item 0, rest) else none
  | '^' | '$' => some (s.item 0, rest)
  | _ => if s.mode.folds then none else some (s.item 0, rest)

/-- Whether the rest of a pattern is one: every group is closed at its end, and
nothing is nested too deep. -/
def scan : Nat → State → List Char → Bool
  | fuel, s, cs =>
    match s.mode.skip cs, fuel with
    | [], _ => s.outer.isEmpty && s.choices.depth ≤ deepest
    | _, 0 => false
    | c :: rest, fuel + 1 =>
      match s.next? c rest with
      | some (s, rest) => scan fuel s rest
      | none => false

/-- Whether a text is a pattern. -/
def isValid (text : List Char) : Bool :=
  scan text.length ⟨Mode.initial, Choices.empty, [], []⟩ text

end Wayfarer.LogFilter.Pattern
