import Wayfarer.Cbor.Header

/-!
# CBOR readers

Readers for the shapes that records are made of. A reader takes from the front
of the input what its shape needs and leaves the rest. Tags are passed over.
Arrays, maps and variants count as levels; a reader of nested data is given the
number of levels it may still open.

* `untagged`, `integer?`, `text?` and the like read one item of a known shape.
* `items` and `entries` read the content of arrays and maps, of known or open
  length.
* `choice` opens a variant, `ignore` reads an item of any shape.
-/

namespace Wayfarer.Cbor

open Reader

/-- The next header that is no tag. -/
def untagged : Reader Header := do
  let found ← loop (none : Option Header) fun _ => do
    match ← header with
    | .tag _ => pure (none, true)
    | h => pure (some h, false)
  match found with
  | some h => pure h
  | none => failure

/-- The next header, left in place. -/
def peek : Reader Header := fun bytes => do
  let (h, _) ← header bytes
  some (h, bytes)

/-- The pieces of a byte or text string: one piece of known length, or pieces up
to a break. Open strings may contain open strings. `length?` tells the strings
of the wanted kind apart. -/
def pieces (length? : Header → Option (Option Nat)) : Option Nat → Reader (List Bytes)
  | some n => do pure [← take n]
  | none => do
    let (_, found) ← loop ((1 : Nat), ([] : List Bytes)) fun (depth, acc) => do
      match ← header with
      | .stop => if depth ≤ 1 then pure ((0, acc), false) else pure ((depth - 1, acc), true)
      | h =>
        match length? h with
        | some (some n) => do
          let piece ← take n
          pure ((depth, acc ++ [piece]), true)
        | some none => pure ((depth + 1, acc), true)
        | none => failure
    pure found

/-- The length of a byte string header. -/
def bytesLength? : Header → Option (Option Nat)
  | .bytes n => some n
  | _ => none

/-- The length of a text header. -/
def textLength? : Header → Option (Option Nat)
  | .text n => some n
  | _ => none

/-- The content of a byte string. -/
def bytesOf (length : Option Nat) : Reader Bytes := do
  let found ← pieces bytesLength? length
  pure found.flatten

/-- Well-formed text. -/
def utf8 (bytes : Bytes) : Reader String :=
  match Bytes.toString? bytes with
  | some s => pure s
  | none => failure

/-- The content of a text; every piece must be well formed by itself. -/
def textOf (length : Option Nat) : Reader String := do
  let found ← pieces textLength? length
  let parts ← found.mapM utf8
  pure (String.join parts)

/-- A text. -/
def text? : Reader String := do
  match ← untagged with
  | .text n => textOf n
  | _ => failure

/-- The number of a big integer: at most sixteen bytes after leading zeros. -/
def bigNumber : Reader Nat := do
  match ← header with
  | .bytes n => do
    let bytes ← bytesOf n
    let digits := bytes.dropWhile (· == 0)
    if digits.length ≤ 16 then pure (Bytes.ofBigEndian digits) else failure
  | _ => failure

/-- An integer: whether it is negative, and its number. The negative integer of
number `n` is `-1 - n`. -/
def integer? : Reader (Bool × Nat) := do
  let found ← loop (none : Option (Bool × Nat)) fun _ => do
    match ← header with
    | .positive n => pure (some (false, n), false)
    | .negative n => pure (some (true, n), false)
    | .tag 2 => do pure (some (false, ← bigNumber), false)
    | .tag 3 => do pure (some (true, ← bigNumber), false)
    | .tag _ => pure (none, true)
    | _ => failure
  match found with
  | some r => pure r
  | none => failure

/-- An unsigned integer below a bound. -/
def below (bound : Nat) : Reader Nat := do
  match ← integer? with
  | (false, n) => if n < bound then pure n else failure
  | (true, _) => failure

/-- An unsigned 64-bit integer. -/
def word? : Reader UInt64 := do pure (← below UInt64.size).toUInt64

/-- A signed 64-bit integer. -/
def signed? : Reader Int64 := do
  let (negative, n) ← integer?
  if n < 1 <<< 63 then
    pure (Int64.ofInt (if negative then -1 - (n : Int) else (n : Int)))
  else failure

/-- A truth value. -/
def bool? : Reader Bool := do
  match ← untagged with
  | .simple 20 => pure false
  | .simple 21 => pure true
  | _ => failure

/-- A number with a point. -/
def float? : Reader Double := do
  match ← untagged with
  | .float x => pure x
  | _ => failure

/-- The longest name of a field or variant. -/
def maxNameLength : Nat := 4096

/-- The name of a field or variant, as text or as bytes, of known length. -/
def name? : Reader Bytes := do
  match ← untagged with
  | .text (some n) =>
    if n ≤ maxNameLength then do
      let bytes ← take n
      let _ ← utf8 bytes
      pure bytes
    else failure
  | .bytes (some n) => if n ≤ maxNameLength then take n else failure
  | _ => failure

/-- Whether one more element follows, given how many are announced. A break ends
an open count. -/
def another : Option Nat → Reader (Option (Option Nat))
  | some 0 => pure none
  | some (n + 1) => pure (some (some n))
  | none => do
    match ← peek with
    | .stop => do
      let _ ← header
      pure none
    | _ => pure (some none)

/-- Runs a step for every announced element. -/
def forEach {σ : Type} (count : Option Nat) (s : σ) (step : σ → Reader σ) : Reader σ := do
  let (_, s) ← loop (count, s) fun (count, s) => do
    match ← another count with
    | none => pure ((none, s), false)
    | some rest => do
      let s ← step s
      pure ((rest, s), true)
  pure s

/-- Every announced element of an array. -/
def items {α : Type} (count : Option Nat) (item : Reader α) : Reader (List α) :=
  forEach count [] fun acc => do pure (acc ++ [← item])

/-- Exactly `n` elements of an array. Elements beyond them stay unread. -/
def exactly {α : Type} (item : Reader α) : Nat → Option Nat → Reader (List α)
  | 0, _ => pure []
  | n + 1, count => do
    match ← another count with
    | none => failure
    | some rest => do
      let x ← item
      pure (x :: (← exactly item n rest))

/-- Opens one level. -/
def deeper {α : Type} (limit : Nat) (body : Nat → Reader α) : Reader α :=
  match limit with
  | 0 => failure
  | limit + 1 => body limit

/-- A list, its items read with the remaining levels. An empty byte string is an
empty list. -/
def list? {α : Type} (limit : Nat) (item : Nat → Reader α) : Reader (List α) := do
  match ← untagged with
  | .array count => deeper limit fun limit => items count (item limit)
  | .bytes n => do
    let bytes ← bytesOf n
    if bytes.isEmpty then pure [] else failure
  | _ => failure

/-- A string of `n` bytes, as an array of small integers or as a byte string. -/
def fixed? (limit n : Nat) : Reader Bytes := do
  match ← untagged with
  | .array count =>
    deeper limit fun _ => exactly (do pure (← below 256).toUInt8) n count
  | .bytes length => do
    let bytes ← bytesOf length
    if n ≤ bytes.length then pure (bytes.take n) else failure
  | _ => failure

/-- A pair, written as an array. -/
def pair? {α β : Type} (limit : Nat) (first : Nat → Reader α) (second : Nat → Reader β) :
    Reader (α × β) := do
  match ← untagged with
  | .array count =>
    deeper limit fun limit => do
      match ← another count with
      | none => failure
      | some count => do
        let a ← first limit
        match ← another count with
        | none => failure
        | some _ => do
          let b ← second limit
          pure (a, b)
  | _ => failure

/-- The entries of a map, each read by a step that starts at the key. -/
def entries? {σ : Type} (limit : Nat) (s : σ) (step : Nat → σ → Reader σ) : Reader σ := do
  match ← untagged with
  | .map count => deeper limit fun limit => forEach count s (step limit)
  | _ => failure

/-- Opens a variant and reads its name; the body reads the content that follows.
A variant without content may stand as a mere name. -/
def choice {α : Type} (limit : Nat) (body : Nat → Bytes → Reader α) : Reader α := fun bytes => do
  let (h, rest) ← untagged bytes
  match h with
  | .map (some 1) => deeper limit (fun limit => do body limit (← name?)) rest
  | .text _ => deeper limit (fun limit => do body limit (← name?)) bytes
  | _ => none

/-- Nothing, or an item of a known shape. -/
def option? {α : Type} (item : Reader α) : Reader (Option α) := do
  match ← peek with
  | .simple 22 | .simple 23 => do
    let _ ← header
    pure none
  | _ => do pure (some (← item))

/-- Whether a header after a tag makes both a big integer: a byte string of at
most sixteen bytes, its length known, after tag 2 for positive and tag 3 for
negative numbers. -/
def isBigInteger (tag : Nat) : Header → Bool
  | .bytes (some length) => (tag == 2 || tag == 3) && length ≤ 16
  | _ => false

/-- Reads the number of a big integer of unknown use. It has to fit into 128
bits, the sign included if it is negative. -/
def ignoreBigInteger (tag : Nat) : Reader Unit := do
  let n ← bigNumber
  if tag = 3 ∧ 1 <<< 127 ≤ n then failure else pure ()

/-- Reads an item of any shape, its parts by `inner` if a level is left for
them. -/
def ignoreWith (inner : Option (Reader Unit)) : Reader Unit := do
  match ← header with
  | .positive _ | .negative _ | .float _ => pure ()
  | .bytes n => do
    let _ ← bytesOf n
    pure ()
  | .text n => do
    let _ ← textOf n
    pure ()
  | .simple n => if 20 ≤ n ∧ n ≤ 23 then pure () else failure
  | .stop => failure
  | .tag n => do
    if isBigInteger n (← peek) then ignoreBigInteger n
    else
      match inner with
      | none => failure
      | some part => part
  | .array count =>
    match inner with
    | none => failure
    | some part => forEach count () fun _ => part
  | .map count =>
    match inner with
    | none => failure
    | some part => forEach count () fun _ => do
      part
      part

/-- Reads an item of any shape and forgets it. -/
def ignore : Nat → Reader Unit
  | 0 => ignoreWith none
  | limit + 1 => ignoreWith (some (ignore limit))

/-- A field of a record that may be given once. -/
def once {α β σ : Type} (slot : Option β) (item : Reader α) (store : α → σ) : Reader σ :=
  match slot with
  | some _ => failure
  | none => do pure (store (← item))

/-- A field of a record that must have been given. -/
def need {α : Type} (slot : Option α) : Reader α :=
  match slot with
  | some x => pure x
  | none => failure

end Wayfarer.Cbor
