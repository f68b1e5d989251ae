import Wayfarer.Bytes

/-!
# The grammar of JSON

What JSON is as written, apart from any reader of it. Numbers and texts are made
of parts that can only be well formed; a `Tree` is a value made of them, with
the entries of its records in order and any name as often as it comes. `Writes t
w` says that the bytes `w` write the value `t`: tokens are what they are, and
between them there may be blanks.

* `Numeral.bytes` and `Text.bytes` are the written forms of numbers and texts. A
  text need not make sense as one: `Text.read?` says which one it is.
* `Row` is about members with commas between them, `WritesEntry` about the
  entries of records.
-/

namespace Wayfarer.Json

/-! ## Blanks -/

/-- A blank between tokens. -/
inductive Blank
  | space | tab | line | feed

/-- The byte of a blank. -/
def Blank.byte : Blank → UInt8
  | .space => 0x20
  | .tab => 0x09
  | .line => 0x0A
  | .feed => 0x0D

/-- Any number of blanks. -/
abbrev Blanks := List Blank

/-- The bytes of blanks. -/
def Blanks.bytes (bs : Blanks) : Bytes := bs.map Blank.byte

/-! ## Numbers -/

/-- A decimal digit. -/
abbrev Digit := Fin 10

/-- The byte of a digit. -/
def Digit.byte (d : Digit) : UInt8 := UInt8.ofNat (0x30 + d.val)

/-- A run of digits. -/
structure Digits where
  first : Digit
  others : List Digit

/-- The bytes of a run of digits. -/
def Digits.bytes (ds : Digits) : Bytes := (ds.first :: ds.others).map Digit.byte

/-- The number that a run of digits stands for. -/
def Digits.value (ds : Digits) : Nat :=
  (ds.first :: ds.others).foldl (fun n d => 10 * n + d.val) 0

/-- The digits of a whole number: a run that does not begin with a zero, unless
it is one. -/
structure Whole extends Digits where
  plain : first = 0 → others = []

/-- What may follow the digits of a number to scale it. -/
structure Exponent where
  upper : Bool
  sign : Option Bool
  digits : Digits

/-- The bytes of the sign of an exponent; a plus may be left out. -/
def Exponent.signBytes (e : Exponent) : Bytes :=
  match e.sign with
  | none => []
  | some false => [0x2B]
  | some true => [0x2D]

/-- The bytes of an exponent. -/
def Exponent.bytes (e : Exponent) : Bytes :=
  (if e.upper then 0x45 else 0x65) :: (e.signBytes ++ e.digits.bytes)

/-- The number that an exponent stands for. -/
def Exponent.value (e : Exponent) : Int :=
  if e.sign = some true then -(e.digits.value : Int) else e.digits.value

/-- A number as written. -/
structure Numeral where
  negative : Bool
  whole : Whole
  fraction : Option Digits
  exponent : Option Exponent

namespace Numeral

/-- What comes after the digits before the point. -/
def tail (n : Numeral) : Bytes :=
  (n.fraction.elim [] fun ds => 0x2E :: ds.bytes) ++ n.exponent.elim [] Exponent.bytes

/-- The bytes of a number. -/
def bytes (n : Numeral) : Bytes :=
  (if n.negative then [0x2D] else []) ++ n.whole.toDigits.bytes ++ n.tail

/-- The number of 64 bits that is written by digits alone. -/
def natural? (n : Numeral) : Option UInt64 :=
  if n.negative = false ∧ n.fraction.isNone ∧ n.exponent.isNone ∧
      n.whole.toDigits.value < UInt64.size then
    some n.whole.toDigits.value.toUInt64
  else none

end Numeral

/-! ## Texts -/

/-- A letter that stands for a character after a backslash. -/
inductive Letter
  | quote | backslash | slash | b | f | n | r | t

/-- The byte of a letter. -/
def Letter.byte : Letter → UInt8
  | .quote => 0x22
  | .backslash => 0x5C
  | .slash => 0x2F
  | .b => 0x62
  | .f => 0x66
  | .n => 0x6E
  | .r => 0x72
  | .t => 0x74

/-- The byte of the character that a letter stands for. -/
def Letter.meaning : Letter → UInt8
  | .quote => 0x22
  | .backslash => 0x5C
  | .slash => 0x2F
  | .b => 0x08
  | .f => 0x0C
  | .n => 0x0A
  | .r => 0x0D
  | .t => 0x09

/-- A hexadecimal digit of either case. -/
structure HexDigit where
  value : Fin 16
  upper : Bool

/-- The byte of a hexadecimal digit. -/
def HexDigit.byte (d : HexDigit) : UInt8 :=
  UInt8.ofNat (d.value.val + if d.value.val < 10 then 0x30 else if d.upper then 0x37 else 0x57)

/-- A code unit of 16 bits. -/
structure CodeUnit where
  a : HexDigit
  b : HexDigit
  c : HexDigit
  d : HexDigit

namespace CodeUnit

/-- The bytes of the digits of a code unit. -/
def bytes (u : CodeUnit) : Bytes := [u.a.byte, u.b.byte, u.c.byte, u.d.byte]

/-- The number of a code unit. -/
def value (u : CodeUnit) : Nat :=
  16 * (16 * (16 * u.a.value.val + u.b.value.val) + u.c.value.val) + u.d.value.val

/-- Whether a code unit is the first half of a character. -/
abbrev Leads (u : CodeUnit) : Prop := 0xD800 ≤ u.value ∧ u.value ≤ 0xDBFF

/-- Whether a code unit is the second half of a character. -/
abbrev Trails (u : CodeUnit) : Prop := 0xDC00 ≤ u.value ∧ u.value ≤ 0xDFFF

/-- The character of two halves. -/
def joined (u v : CodeUnit) : Nat := 0x10000 + (u.value - 0xD800) * 0x400 + (v.value - 0xDC00)

end CodeUnit

/-- A part of a text: a byte that stands for itself, or an escape. -/
inductive Piece
  | byte (b : UInt8) (own : b ≠ 0x22 ∧ b ≠ 0x5C ∧ 0x20 ≤ b)
  | letter (l : Letter)
  | unit (u : CodeUnit)

/-- The bytes of a part of a text. -/
def Piece.bytes : Piece → Bytes
  | .byte b _ => [b]
  | .letter l => [0x5C, l.byte]
  | .unit u => 0x5C :: 0x75 :: u.bytes

/-- A text as written. -/
abbrev Text := List Piece

namespace Text

/-- The bytes of a text, without its opening quote. -/
def bytes (t : Text) : Bytes := t.flatMap Piece.bytes ++ [0x22]

/-- The bytes of a character. -/
def character (n : Nat) : Bytes := Bytes.ofString (String.singleton (Char.ofNat n))

/-- The bytes that a text stands for, unless it has half a character. -/
def meaning? : Text → Option Bytes
  | [] => some []
  | .byte b _ :: rest => (meaning? rest).map (b :: ·)
  | .letter l :: rest => (meaning? rest).map (l.meaning :: ·)
  | .unit u :: rest =>
    if u.Trails then none
    else if u.Leads then
      match rest with
      | .unit v :: rest =>
        if v.Trails then (meaning? rest).map (character (u.joined v) ++ ·) else none
      | _ => none
    else (meaning? rest).map (character u.value ++ ·)

/-- The text that is written, if it makes sense as one. -/
def read? (t : Text) : Option String := t.meaning?.bind Bytes.toString?

end Text

/-! ## Values -/

/-- A value as written, up to blanks. -/
inductive Tree
  | null
  | bool (b : Bool)
  | number (n : Numeral)
  | text (t : Text)
  | list (items : List Tree)
  | record (entries : List (Text × Tree))

section Rows

variable {α : Type} (P : α → Bytes → Prop)

/-- More members of a row, with a comma before each. -/
inductive More : List α → Bytes → Prop
  | nil : More [] []
  | cons {x : α} {xs : List α} {w v : Bytes} (before after : Blanks) :
      P x w → More xs v → More (x :: xs) (0x2C :: (before.bytes ++ w ++ after.bytes ++ v))

/-- Members with commas between them. -/
inductive Row : List α → Bytes → Prop
  | nil (inside : Blanks) : Row [] inside.bytes
  | cons {x : α} {xs : List α} {w v : Bytes} (before after : Blanks) :
      P x w → More P xs v → Row (x :: xs) (before.bytes ++ w ++ after.bytes ++ v)

end Rows

/-- An entry of a record, of which the value is written as said. -/
inductive WritesEntry (P : Tree → Bytes → Prop) : Text × Tree → Bytes → Prop
  | mk {t : Tree} {w : Bytes} (key : Text) (before after : Blanks) :
      P t w → WritesEntry P (key, t)
        (0x22 :: key.bytes ++ before.bytes ++ 0x3A :: (after.bytes ++ w))

/-- Bytes that write a value. -/
inductive Writes : Tree → Bytes → Prop
  | null : Writes .null [0x6E, 0x75, 0x6C, 0x6C]
  | true : Writes (.bool true) [0x74, 0x72, 0x75, 0x65]
  | false : Writes (.bool false) [0x66, 0x61, 0x6C, 0x73, 0x65]
  | number (n : Numeral) : Writes (.number n) n.bytes
  | text (t : Text) : Writes (.text t) (0x22 :: t.bytes)
  | list {items : List Tree} {w : Bytes} :
      Row Writes items w → Writes (.list items) (0x5B :: w ++ [0x5D])
  | record {entries : List (Text × Tree)} {w : Bytes} :
      Row (WritesEntry Writes) entries w → Writes (.record entries) (0x7B :: w ++ [0x7D])

end Wayfarer.Json
