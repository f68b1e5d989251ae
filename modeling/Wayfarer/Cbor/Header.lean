import Wayfarer.Double
import Wayfarer.Reader

/-!
# CBOR item headers

The first bytes of every data item: its major type and its argument. An argument
is written in the shortest of five forms and read in any of them. A length may
be left open; such an item ends with a break.
-/

namespace Wayfarer.Cbor

open Reader

/-- What the head of an item says. An open length is `none`. -/
inductive Header
  | positive (n : Nat)
  | negative (n : Nat)
  | bytes (length : Option Nat)
  | text (length : Option Nat)
  | array (length : Option Nat)
  | map (length : Option Nat)
  | tag (n : Nat)
  | simple (n : Nat)
  | float (x : Double)
  | stop
  deriving DecidableEq

/-- The argument announced by the low five bits of the first byte; `none` for an
open one. -/
def argument (minor : Nat) : Reader (Option Nat) :=
  if minor < 24 then pure (some minor)
  else if minor = 24 then do pure (some (← number 1))
  else if minor = 25 then do pure (some (← number 2))
  else if minor = 26 then do pure (some (← number 4))
  else if minor = 27 then do pure (some (← number 8))
  else if minor = 31 then pure none
  else failure

/-- An argument that may not be open. -/
def closed (minor : Nat) : Reader Nat := do
  match ← argument minor with
  | some n => pure n
  | none => failure

/-- The seventh major type: simple values, numbers with a point, and the
break. -/
def special (minor : Nat) : Reader Header :=
  if minor < 24 then pure (.simple minor)
  else if minor = 24 then do pure (.simple (← number 1))
  else if minor = 25 then do pure (.float (Binary.half.widen (← number 2)))
  else if minor = 26 then do pure (.float (Binary.single.widen (← number 4)))
  else if minor = 27 then do pure (.float ⟨(← number 8).toUInt64⟩)
  else if minor = 31 then pure .stop
  else failure

/-- The next header. -/
def header : Reader Header := do
  let first ← byte
  let minor := first % 32
  match first / 32 with
  | 0 => do pure (.positive (← closed minor))
  | 1 => do pure (.negative (← closed minor))
  | 2 => do pure (.bytes (← argument minor))
  | 3 => do pure (.text (← argument minor))
  | 4 => do pure (.array (← argument minor))
  | 5 => do pure (.map (← argument minor))
  | 6 => do pure (.tag (← closed minor))
  | _ => special minor

/-- The head of an item of a major type with an argument, in the shortest
form. -/
def head (major n : Nat) : Bytes :=
  let first := major * 32
  if n < 24 then [(first + n).toUInt8]
  else if n < 256 then (first + 24).toUInt8 :: Bytes.bigEndian 1 n
  else if n < 65536 then (first + 25).toUInt8 :: Bytes.bigEndian 2 n
  else if n < 4294967296 then (first + 26).toUInt8 :: Bytes.bigEndian 4 n
  else (first + 27).toUInt8 :: Bytes.bigEndian 8 n

/-! ## Writing items -/

/-- An unsigned integer. -/
def natural (n : Nat) : Bytes := head 0 n

/-- A signed integer. -/
def integer (n : Int) : Bytes :=
  match n with
  | .ofNat k => head 0 k
  | .negSucc k => head 1 k

/-- A text of known length. -/
def text (s : String) : Bytes :=
  let bytes := Bytes.ofString s
  head 3 bytes.length ++ bytes

/-- Null. -/
def null : Bytes := [0xF6]

/-- A truth value. -/
def bool (b : Bool) : Bytes := if b then [0xF5] else [0xF4]

/-- A number with a point, in the narrowest width that keeps every bit. -/
def float (x : Double) : Bytes :=
  match Binary.half.narrow? x with
  | some pattern => 0xF9 :: Bytes.bigEndian 2 pattern
  | none =>
    match Binary.single.narrow? x with
    | some pattern => 0xFA :: Bytes.bigEndian 4 pattern
    | none => 0xFB :: Bytes.bigEndian 8 x.bits.toNat

/-- An array of written items. -/
def array (items : List Bytes) : Bytes := head 4 items.length ++ items.flatten

/-- A map of written keys and values. -/
def map (entries : List (Bytes × Bytes)) : Bytes :=
  head 5 entries.length ++ (entries.map fun e => e.1 ++ e.2).flatten

/-- A variant with content: a map of one entry. -/
def variant (name : String) (content : Bytes) : Bytes := map [(text name, content)]

/-- A record: a map from field names to written values. -/
def record (fields : List (String × Bytes)) : Bytes :=
  map (fields.map fun (name, value) => (text name, value))

end Wayfarer.Cbor
