import Wayfarer.Double
import Wayfarer.Ident
import Wayfarer.Table

/-!
# Values

Field values of nodes, edges and travelers, and the reports a traveler brings
home. A declared default fixes the kind of a field; a null default accepts every
kind (`Value.sameKind`).
-/

namespace Wayfarer

/-- A dynamically typed value. A map lists its entries in key order. -/
inductive Value
  | null
  | bool (b : Bool)
  | int (n : Int64)
  | float (x : Double)
  | str (s : String)
  | list (items : List Value)
  | map (entries : List (String × Value))
  | ref (id : ObjectId)
  deriving Inhabited

namespace Value

/-- The constructor of a value, without its payload. -/
inductive Kind
  | null | bool | int | float | str | list | map | ref
  deriving DecidableEq

/-- The kind of a value. -/
def kind : Value → Kind
  | .null => .null
  | .bool _ => .bool
  | .int _ => .int
  | .float _ => .float
  | .str _ => .str
  | .list _ => .list
  | .map _ => .map
  | .ref _ => .ref

/-- Whether `given` may stand in a field whose declared default is
`declared`. -/
def sameKind (declared given : Value) : Bool :=
  declared.kind == .null || given.kind == .null || declared.kind == given.kind

/-- The text, if the value is one. -/
def str? : Value → Option String
  | .str s => some s
  | _ => none

/-- The integer, if the value is one. -/
def int? : Value → Option Int64
  | .int n => some n
  | _ => none

/-- The truth value, if the value is one. -/
def bool? : Value → Option Bool
  | .bool b => some b
  | _ => none

/-- The map of a list of entries; a later entry of a key replaces an earlier
one. -/
def ofEntries (entries : List (String × Value)) : Value :=
  .map (entries.foldl (fun acc e => Table.put e.1 e.2 acc) [])

/-- The value inside `n` lists of one element each. -/
def nest : Nat → Value → Value
  | 0, v => v
  | n + 1, v => nest n (.list [v])

mutual

/-- Equality of values; numbers compare numerically, so a NaN equals nothing. -/
def same : Value → Value → Bool
  | .null, .null => true
  | .bool a, .bool b => a == b
  | .int a, .int b => a == b
  | .float a, .float b => a.same b
  | .str a, .str b => a == b
  | .list a, .list b => sameItems a b
  | .map a, .map b => sameEntries a b
  | .ref a, .ref b => a == b
  | _, _ => false

/-- Equality of lists of values. -/
def sameItems : List Value → List Value → Bool
  | [], [] => true
  | a :: as, b :: bs => same a b && sameItems as bs
  | _, _ => false

/-- Equality of lists of named values. -/
def sameEntries : List (String × Value) → List (String × Value) → Bool
  | [], [] => true
  | (j, a) :: as, (k, b) :: bs => j == k && same a b && sameEntries as bs
  | _, _ => false

end

end Value

end Wayfarer
