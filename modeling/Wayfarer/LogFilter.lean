import Wayfarer.LogFilter.Pattern
import Wayfarer.Text.Decimal
import Wayfarer.Text.Parts

/-!
# Log filters

A log filter is a list of directives between commas. A directive names a target,
a span in brackets, or both, and a level behind an equals sign; a level may also
stand alone. Behind the name of a span a field can be given in braces, with or
without a value to compare it with. Filters are only checked here: nothing is
logged.

* `LogFilter.isValid` tells whether a text is a filter.
-/

namespace Wayfarer.LogFilter

/-- The names of levels, most quiet first; a level may also be given by its
place in the list. -/
def levels : List String := ["off", "error", "warn", "info", "debug", "trace"]

/-- Whether a text is a level; the empty text stands for the most talkative
one. -/
def isLevel (text : List Char) : Bool :=
  text.isEmpty || levels.contains (String.ofList (text.map Char.toLower)) ||
    (Text.word? text).any (·.toNat < levels.length)

/-! ## Fields -/

/-- The text after the digits at its start. -/
def afterDigits (text : List Char) : List Char := text.dropWhile Char.isDigit

/-- Whether a text is an exponent or nothing. -/
def isExponent : List Char → Bool
  | [] => true
  | c :: rest =>
    let digits := if rest.head? = some '+' || rest.head? = some '-' then rest.drop 1 else rest
    (c == 'e' || c == 'E') && !digits.isEmpty && (afterDigits digits).isEmpty

/-- Whether a text is a number without a sign. -/
def isNumber (text : List Char) : Bool :=
  let rest := afterDigits text
  let word := String.ofList (text.map Char.toLower)
  if ["inf", "infinity", "nan"].contains word then true
  else
    match rest with
    | '.' :: fraction =>
      (rest.length < text.length || (afterDigits fraction).length < fraction.length) &&
        isExponent (afterDigits fraction)
    | _ => rest.length < text.length && isExponent rest

/-- Whether a field can be compared with a value: a number or a pattern. Without
a plus in front, every number is a pattern. -/
def isValue : List Char → Bool
  | '+' :: rest => isNumber rest
  | text => Pattern.isValid text

/-- Whether a text is a field, with or without a value. What follows a second
equals sign is not looked at. -/
def isField (text : List Char) : Bool :=
  match Text.parts '=' text with
  | _ :: value :: _ => isValue value
  | _ => !text.isEmpty

/-! ## Directives -/

/-- What has been read of a directive. Where a part is checked as a whole, the
state knows the position at which it starts. -/
inductive State
  | start
  | target
  | span
  | field (first : Nat)
  | fieldsEnd
  | spanEnd
  | level (first : Nat)

/-- Whether a directive may start with a character. -/
def startsTarget (c : Char) : Bool :=
  ['-', ':', '_'].contains c || Text.isLetterOrNumber c

/-- The state after the character at a position. Parts that are checked are cut
from `written`. -/
def State.next? (written : List Char) (i : Nat) (c : Char) : State → Option State
  | .start =>
    if c = '[' then some .span else if startsTarget c then some .target else none
  | .target =>
    if c = '=' then some (.level (i + 1)) else if c = '[' then some .span else some .target
  | .span =>
    if c = ']' then some .spanEnd else if c = '\x7b' then some (.field (i + 1)) else some .span
  | .field first =>
    if c = '\x7d' then
      if isField (Text.between first i written) then some .fieldsEnd else none
    else some (.field first)
  | .fieldsEnd => if c = ']' then some .spanEnd else none
  | .spanEnd => if c = '=' then some (.level (i + 1)) else none
  | .level first => some (.level first)

/-- Whether a directive may end in a state. -/
def State.isEnd (written : List Char) : State → Bool
  | .target => true
  | .spanEnd => true
  | .level first => isLevel (Text.fromPosition first written)
  | _ => false

/-- Whether a text is a directive. Blanks around it are passed over in looking
for its parts, but the positions found so are those of parts in what is written,
blanks included. So a level stands without blanks around it, and no blanks come
before a directive with one. -/
def isDirective (written : List Char) : Bool :=
  let step (s : State) (entry : Nat × Char) : Option State := s.next? written entry.1 entry.2
  match (Text.placed 0 (Text.trim written)).foldlM step State.start with
  | some s => s.isEnd written
  | none => false

/-- Whether a text is a filter. Empty directives are passed over. -/
def isValid (text : String) : Bool :=
  (Text.parts ',' text.toList).all fun part => part.isEmpty || isDirective part

end Wayfarer.LogFilter
