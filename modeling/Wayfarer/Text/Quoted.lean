import Wayfarer.Bytes
import Wayfarer.Text.CharClass

/-!
# Quoted text

Text between double quotes, as messages and descriptions show it. Quote and
backslash get a backslash, the common controls their letter, and every other
character that cannot be seen on its own is written by its code point.
-/

namespace Wayfarer.Text

/-- The hexadecimal digits of a number without leading zeros. -/
def hexNat (n : Nat) : List Char := (Nat.toDigits 16 n)

/-- Whether a character is written by its code point. -/
def hidden (c : Char) : Bool :=
  if c.toNat < 0x7F then c.toNat < 0x20
  else inClass graphemeExtend c.toNat || inClass unprintable c.toNat

/-- One character inside quotes. -/
def escapeChar (c : Char) : List Char :=
  match c with
  | '"' => ['\\', '"']
  | '\\' => ['\\', '\\']
  | '\n' => ['\\', 'n']
  | '\r' => ['\\', 'r']
  | '\t' => ['\\', 't']
  | _ =>
    if c.toNat = 0 then ['\\', '0']
    else if hidden c then ['\\', 'u', '\x7b'] ++ hexNat c.toNat ++ ['\x7d']
    else [c]

/-- A text between quotes. -/
def quote (s : String) : String :=
  String.ofList ('"' :: s.toList.flatMap escapeChar ++ ['"'])

end Wayfarer.Text
