import Wayfarer.Value

/-!
# Fields

A record of named values in declaration order. Setting a field that is present
keeps its place; a new field goes to the end. A file may name a field twice:
then the first one is read.
-/

namespace Wayfarer

/-- Named values in order. -/
structure Fields where
  entries : List (String × Value)
  deriving Inhabited

namespace Fields

/-- The record without fields. -/
def empty : Fields := ⟨[]⟩

/-- The value of the first entry of a name. -/
def find (name : String) : List (String × Value) → Option Value
  | [] => none
  | (n, v) :: rest => if n = name then some v else find name rest

/-- The entries with the first one of a name changed, or a new one at the
end. -/
def put (name : String) (value : Value) : List (String × Value) → List (String × Value)
  | [] => [(name, value)]
  | (n, v) :: rest => if n = name then (n, value) :: rest else (n, v) :: put name value rest

/-- The value of a field. -/
def get? (f : Fields) (name : String) : Option Value := find name f.entries

/-- Whether a field is present. -/
def contains (f : Fields) (name : String) : Bool := (f.get? name).isSome

/-- The record with one field set. -/
def set (f : Fields) (name : String) (value : Value) : Fields := ⟨put name value f.entries⟩

/-- The record with one field replaced if it is present. -/
def replace (f : Fields) (name : String) (value : Value) : Fields :=
  if f.contains name then f.set name value else f

/-- Every field of `given` set in `f`, one after another. -/
def overlay (f given : Fields) : Fields :=
  given.entries.foldl (fun acc e => acc.set e.1 e.2) f

/-- The record of a list of entries set one after another. -/
def ofEntries (entries : List (String × Value)) : Fields := empty.overlay ⟨entries⟩

/-- The names in order. -/
def names (f : Fields) : List String := f.entries.map (·.1)

/-- The number of fields. -/
def size (f : Fields) : Nat := f.entries.length

@[simp] theorem find_put (name : String) (value : Value) (entries : List (String × Value))
    (n : String) :
    find n (put name value entries) = if n = name then some value else find n entries := by
  induction entries with
  | nil => simp [put, find, eq_comm]
  | cons head rest ih =>
    obtain ⟨m, v⟩ := head
    by_cases hm : m = name
    · subst hm
      by_cases hn : n = m
      · simp [put, find, hn]
      · simp [put, find, hn, Ne.symm hn]
    · by_cases hn : m = n
      · subst hn
        simp [put, find, hm]
      · simp [put, find, hm, hn, ih]

@[simp] theorem get?_set (f : Fields) (name : String) (value : Value) (n : String) :
    (f.set name value).get? n = if n = name then some value else f.get? n := by
  simp [set, get?]

end Fields

end Wayfarer
