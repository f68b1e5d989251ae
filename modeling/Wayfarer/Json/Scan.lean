import Wayfarer.Double
import Wayfarer.Reader

/-!
# Scanning JSON

The strict grammar of JSON over bytes. `skip` passes over a value and looks at
its grammar only; `string` reads a text and insists that it is well formed;
`number` reads a literal exactly.
-/

namespace Wayfarer.Json

open Reader

/-- Blanks between tokens. -/
def isBlank (b : UInt8) : Bool := b == 0x20 || b == 0x0A || b == 0x0D || b == 0x09

/-- Passes over blanks. -/
def blanks : Reader Unit := do
  let _ ← span isBlank
  pure ()

/-- The next byte after blanks, left in place. -/
def token? : Reader (Option Nat) := do
  blanks
  next?

/-- Blanks and one given byte. -/
def symbol (n : Nat) : Reader Unit := do
  blanks
  expect n

/-- A keyword. -/
def word (text : String) : Reader Unit := do
  let want := Bytes.ofString text
  if (← take want.length) = want then pure () else failure

/-- Whether a byte is a decimal digit. -/
def isDigit (b : UInt8) : Bool := 0x30 ≤ b && b ≤ 0x39

/-- The number of a run of decimal digits. -/
def ofDigits (digits : Bytes) : Nat := digits.foldl (fun n b => 10 * n + (b.toNat - 0x30)) 0

/-- A number literal: sign, digits before and after the point, and the written
exponent. A plain literal has neither point nor exponent. -/
structure Literal where
  negative : Bool
  whole : Bytes
  fraction : Bytes
  exponent : Int
  plain : Bool

/-- At least one digit. -/
def digits : Reader Bytes := do
  let found ← span isDigit
  if found.isEmpty then failure else pure found

/-- The digits before the point: a single zero, or no leading zero. -/
def wholeDigits : Reader Bytes := do
  let found ← digits
  match found with
  | 0x30 :: _ :: _ => failure
  | _ => pure found

/-- The sign and digits of an exponent. -/
def exponentPart : Reader Int := do
  let negative ←
    match ← next? with
    | some 0x2B => do
      let _ ← byte
      pure false
    | some 0x2D => do
      let _ ← byte
      pure true
    | _ => pure false
  let n := ofDigits (← digits)
  pure (if negative then -(n : Int) else n)

/-- A number literal. -/
def number : Reader Literal := do
  let negative ←
    match ← next? with
    | some 0x2D => do
      let _ ← byte
      pure true
    | _ => pure false
  let whole ← wholeDigits
  let (fraction, point) ←
    match ← next? with
    | some 0x2E => do
      let _ ← byte
      pure (← digits, true)
    | _ => pure ([], false)
  let (exponent, power) ←
    match ← next? with
    | some 0x65 | some 0x45 => do
      let _ ← byte
      pure (← exponentPart, true)
    | _ => pure (0, false)
  pure ⟨negative, whole, fraction, exponent, !point && !power⟩

/-- Takes digits into a 64-bit word until the next one would not fit. Gives the
word and how many digits were left over. -/
def fillWord : Nat → Bytes → Nat × Nat
  | n, [] => (n, 0)
  | n, b :: rest =>
    let m := 10 * n + (b.toNat - 0x30)
    if m < UInt64.size then fillWord m rest else (n, rest.length + 1)

/-- The leading digits of a literal as a 64-bit word, and the power of ten that
scales them. Digits that do not fit count for their place before the point and
for nothing after it. -/
def Literal.scaled (l : Literal) : Nat × Int :=
  let (whole, dropped) := fillWord 0 l.whole
  let (word, ignored) := fillWord whole l.fraction
  (word, l.exponent + (dropped : Int) - ((l.fraction.length - ignored : Nat) : Int))

/-- Whether a literal is too large for a double. Its word and its power of ten
are rounded before they are multiplied, and no double holds a power of ten above
the 308th. -/
def Literal.overflows (l : Literal) : Bool :=
  let (word, exponent) := l.scaled
  if word = 0 || exponent < 0 then false
  else if 308 < exponent then true
  else Double.limit ≤
    Double.nearest (Double.nearest word * Double.nearest (Nat.pow 10 exponent.toNat))

/-- Four hexadecimal digits. -/
def hex4 : Reader Nat := do
  let found ← take 4
  match found.mapM fun b => Bytes.hexValue? (Char.ofNat b.toNat) with
  | some ds => pure (ds.foldl (fun n d => 16 * n + d) 0)
  | none => failure

/-- The byte that a one-letter escape stands for. -/
def shortEscape? : Nat → Option UInt8
  | 0x22 => some 0x22
  | 0x5C => some 0x5C
  | 0x2F => some 0x2F
  | 0x62 => some 0x08
  | 0x66 => some 0x0C
  | 0x6E => some 0x0A
  | 0x72 => some 0x0D
  | 0x74 => some 0x09
  | _ => none

/-- The bytes of the character with a code point. -/
def charBytes (n : Nat) : Bytes := Bytes.ofString (String.singleton (Char.ofNat n))

/-- The character of an escape by code unit; a pair of surrogates makes one
character. -/
def unitEscape : Reader Bytes := do
  let first ← hex4
  if 0xDC00 ≤ first ∧ first ≤ 0xDFFF then failure
  else if 0xD800 ≤ first ∧ first ≤ 0xDBFF then do
    expect 0x5C
    expect 0x75
    let second ← hex4
    if 0xDC00 ≤ second ∧ second ≤ 0xDFFF then
      pure (charBytes (0x10000 + (first - 0xD800) * 0x400 + (second - 0xDC00)))
    else failure
  else pure (charBytes first)

/-- What follows a backslash. -/
def escape : Reader Bytes := do
  let b ← byte
  if b = 0x75 then unitEscape
  else
    match shortEscape? b with
    | some c => pure [c]
    | none => failure

/-- The rest of a text after its opening quote, with escapes resolved. -/
def stringBytes : Reader Bytes := do
  loop [] fun acc => do
    let b ← byte
    if b = 0x22 then pure (acc, false)
    else if b = 0x5C then do pure (acc ++ (← escape), true)
    else if b < 0x20 then failure
    else pure (acc ++ [b.toUInt8], true)

/-- A text. -/
def string : Reader String := do
  symbol 0x22
  match Bytes.toString? (← stringBytes) with
  | some s => pure s
  | none => failure

/-- Passes over the rest of a text after its opening quote. Code units need not
make sense. -/
def skipString : Reader Unit := do
  loop () fun _ => do
    let b ← byte
    if b = 0x22 then pure ((), false)
    else if b = 0x5C then do
      let e ← byte
      if e = 0x75 then do
        let _ ← hex4
        pure ((), true)
      else if (shortEscape? e).isSome then pure ((), true)
      else failure
    else if b < 0x20 then failure
    else pure ((), true)

/-- The elements of an array after its opening bracket. The step gets the
element's position and starts before it. -/
def elements {σ : Type} (s : σ) (step : Nat → σ → Reader σ) : Reader σ := do
  let (_, s) ← loop (0, s) fun (i, s) => do
    match ← token? with
    | some 0x5D => do
      let _ ← byte
      pure ((i, s), false)
    | some 0x2C =>
      if i = 0 then failure
      else do
        let _ ← byte
        match ← token? with
        | some 0x5D => failure
        | _ => do
          let s ← step i s
          pure ((i + 1, s), true)
    | _ =>
      if i = 0 then do
        let s ← step i s
        pure ((i + 1, s), true)
      else failure
  pure s

/-- The entries of an object after its opening brace. The step starts at the
key. -/
def entries {σ : Type} (s : σ) (step : σ → Reader σ) : Reader σ := do
  let (_, s) ← loop (true, s) fun (first, s) => do
    match ← token? with
    | some 0x7D => do
      let _ ← byte
      pure ((false, s), false)
    | some 0x2C =>
      if first then failure
      else do
        let _ ← byte
        match ← token? with
        | some 0x7D => failure
        | _ => do
          let s ← step s
          pure ((false, s), true)
    | _ =>
      if first then do
        let s ← step s
        pure ((false, s), true)
      else failure
  pure s

/-- Passes over a value of any shape, inner values by `inner`. -/
def skipWith (inner : Reader Unit) : Reader Unit := do
  match ← token? with
  | some 0x6E => word "null"
  | some 0x74 => word "true"
  | some 0x66 => word "false"
  | some 0x22 => do
    let _ ← byte
    skipString
  | some 0x5B => do
    let _ ← byte
    elements () fun _ _ => inner
  | some 0x7B => do
    let _ ← byte
    entries () fun _ => do
      symbol 0x22
      skipString
      symbol 0x3A
      inner
  | _ => do
    let _ ← number
    pure ()

/-- Passes over a value nested at most `fuel` deep. -/
def skipNested : Nat → Reader Unit
  | 0 => failure
  | fuel + 1 => skipWith (skipNested fuel)

/-- Passes over a value. No value nests deeper than it is long. -/
def skip : Reader Unit := fun bytes => skipNested (bytes.length + 1) bytes

/-- A field name and its colon. -/
def key : Reader String := do
  let name ← string
  symbol 0x3A
  pure name

/-- A whole document: one value and nothing but blanks after it. -/
def document {α : Type} (r : Reader α) (bytes : Bytes) : Option α :=
  whole (do
    let a ← r
    blanks
    pure a) bytes

end Wayfarer.Json
