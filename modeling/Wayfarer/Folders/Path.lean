import Wayfarer.Text.Parts

/-!
# Paths

A path is a text of names between slashes. Empty names and single dots lead
nowhere, but at the end of a path they tell that it leads to a directory.

* `Path.ofText?` reads a path.
* `Path.within?` is a path that starts at a directory.
-/

namespace Wayfarer

/-- What stands behind the last name of a path. -/
inductive PathEnd
  | nothing
  | slash
  | dot
  deriving DecidableEq

/-- A path behind the base directory: the names that lead somewhere, of which
two dots lead back out of a directory, what stands behind them, and the number
of its bytes. -/
structure Path where
  names : List String
  ending : PathEnd
  bytes : Nat

namespace Path

/-- The most bytes of a path. -/
def longest : Nat := 4095

/-- The bytes that lead to the base directory. -/
def baseBytes : Nat := 15

/-- Whether a name leads somewhere. -/
def leads (name : String) : Bool := !name.isEmpty && name != "."

/-- What stands behind the last name that leads somewhere. -/
def endOf (names : List String) : PathEnd :=
  let behind := names.reverse.takeWhile fun name => !leads name
  if behind.isEmpty then .nothing else if behind.contains "." then .dot else .slash

/-- The path in a text that stands behind the base. No path has too many bytes,
nor a zero byte. -/
def ofText? (text : String) : Option Path :=
  if baseBytes + text.utf8ByteSize ≤ longest && text.toList.all (·.toNat != 0) then
    let names := (Text.parts '/' text.toList).map String.ofList
    some ⟨names.filter leads, endOf names, text.utf8ByteSize⟩
  else none

/-- The path to what a text names as seen from a directory below the base. A
text that starts with a slash does not start there. -/
def within? (folder text : String) : Option Path :=
  if text.toList.head? = some '/' then none else ofText? ("/" ++ folder ++ "/" ++ text)

/-- The path behind the base directory, if a text starts with the base. -/
def below? (base text : String) : Option Path :=
  let rest := text.toList.drop base.length
  if base.toList.isPrefixOf text.toList && (rest.isEmpty || rest.head? = some '/') then
    ofText? (String.ofList rest)
  else none

/-- The most bytes of a name behind a path to a directory. -/
def room (path : Path) : Nat := longest - baseBytes - path.bytes - 1

end Path

end Wayfarer
