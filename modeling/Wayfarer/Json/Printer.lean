import Wayfarer.Bytes

/-!
# Printing JSON

Documents printed over several lines: two blanks for each level, one entry a
line, no line break at the end.
-/

namespace Wayfarer.Json

/-- A document. -/
inductive Doc
  | null
  | bool (b : Bool)
  | nat (n : Nat)
  | text (s : String)
  | record (entries : List (String × Doc))
  deriving Inhabited

/-- One character inside quotes. -/
def escapeChar (c : Char) : List Char :=
  match c with
  | '"' => ['\\', '"']
  | '\\' => ['\\', '\\']
  | '\n' => ['\\', 'n']
  | '\r' => ['\\', 'r']
  | '\t' => ['\\', 't']
  | _ =>
    if c.toNat = 8 then ['\\', 'b']
    else if c.toNat = 12 then ['\\', 'f']
    else if c.toNat < 0x20 then
      ['\\', 'u', '0', '0', Bytes.hexDigit (c.toNat / 16), Bytes.hexDigit (c.toNat % 16)]
    else [c]

/-- A text between quotes. -/
def quote (s : String) : String :=
  String.ofList ('"' :: s.toList.flatMap escapeChar ++ ['"'])

/-- The blanks in front of a line at a level. -/
def indent (level : Nat) : String := String.ofList (List.replicate (2 * level) ' ')

namespace Doc

mutual

/-- A document that starts at a level. -/
def printAt (level : Nat) : Doc → String
  | .null => "null"
  | .bool true => "true"
  | .bool false => "false"
  | .nat n => toString n
  | .text s => quote s
  | .record [] => "\x7b\x7d"
  | .record (e :: rest) =>
    "\x7b\n" ++ printEntries (level + 1) (e :: rest) ++ "\n" ++ indent level ++ "\x7d"

/-- The entries of a record, one a line. -/
def printEntries (level : Nat) : List (String × Doc) → String
  | [] => ""
  | [(name, d)] => indent level ++ quote name ++ ": " ++ printAt level d
  | (name, d) :: rest =>
    indent level ++ quote name ++ ": " ++ printAt level d ++ ",\n" ++ printEntries level rest

end

/-- The text of a document. -/
def print (d : Doc) : String := d.printAt 0

end Doc

end Wayfarer.Json
