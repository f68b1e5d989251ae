/-!
# Decimal numbers in text

Reading an unsigned 64-bit number from a text, blanks around it left out.
-/

namespace Wayfarer.Text

/-- White space of any script. -/
def isBlank (c : Char) : Bool :=
  let n := c.toNat
  (9 ≤ n && n ≤ 13) || n == 0x20 || n == 0x85 || n == 0xA0 || n == 0x1680 ||
    (0x2000 ≤ n && n ≤ 0x200A) || n == 0x2028 || n == 0x2029 || n == 0x202F || n == 0x205F ||
    n == 0x3000

/-- The characters without blanks at either end. -/
def trim (cs : List Char) : List Char :=
  ((cs.dropWhile isBlank).reverse.dropWhile isBlank).reverse

/-- The value of a decimal digit. -/
def digit? (c : Char) : Option Nat :=
  if '0' ≤ c ∧ c ≤ '9' then some (c.toNat - 48) else none

/-- The number whose decimal digits are given, most significant first. -/
def ofDigits? (cs : List Char) : Option Nat :=
  cs.foldlM (fun n c => (digit? c).map fun d => 10 * n + d) 0

/-- A number without sign or with a plus, one digit at least, below 2^64. -/
def word? (cs : List Char) : Option UInt64 :=
  let digits :=
    match cs with
    | '+' :: rest => rest
    | _ => cs
  if digits.isEmpty then none
  else
    match ofDigits? digits with
    | some n => if n < UInt64.size then some n.toUInt64 else none
    | none => none

end Wayfarer.Text
