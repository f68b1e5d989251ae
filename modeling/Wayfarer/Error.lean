import Wayfarer.Access
import Wayfarer.Taxonomy
import Wayfarer.Text.Quoted

/-!
# Errors

Why an operation on the graph or on its storage is refused, with the wording of
each cause.
-/

namespace Wayfarer

/-- A cause of refusal. -/
inductive Error
  /-- No tier holds the object. -/
  | notFound (id : ObjectId)
  /-- The requester's level on the object is too low. -/
  | denied (id : ObjectId) (required : Level)
  /-- A node that still has edges was to be removed as isolated. -/
  | stillReferenced (id : ObjectId)
  /-- A tenant root was to be created by hand or removed. -/
  | rootPinned (id : ObjectId)
  /-- No type of that kind has that name. -/
  | unknownType (kind : Kind) (name : String)
  /-- The type does not declare the field. -/
  | unknownField (type field : String)
  /-- The value's kind differs from the declared one. -/
  | typeMismatch (field : String)
  /-- The body of an ability failed by itself. -/
  | behavior (text : String)
  /-- Somebody else committed the object in the meantime. -/
  | conflict (id : ObjectId) (expected found : UInt64)
  /-- An anchor file cannot be read as an anchor. -/
  | malformed
  /-- The epoch file does not hold a number. -/
  | badEpoch (text : String)
  /-- A file operation failed. -/
  | io
  /-- No walker type has that name. -/
  | unknownTraveler (name : String)
  /-- The tenant has no root. -/
  | unknownRoot (id : ObjectId)
  /-- A walk did not come to an end within its fuel. -/
  | unfinished
  deriving DecidableEq

namespace Error

/-- The wording of a cause. -/
def message : Error → String
  | .notFound id => "not found: " ++ id.text
  | .denied id required => "permission denied: " ++ required.text ++ " on " ++ id.text
  | .stillReferenced id => "entity " ++ id.text ++ " is still referenced by relationships"
  | .rootPinned id => "tenant root " ++ id.text ++ " is pinned"
  | .unknownType kind name => "unknown " ++ kind.text ++ " type: " ++ name
  | .unknownField type field => "unknown field " ++ field ++ " on " ++ type
  | .typeMismatch field => "type mismatch for field " ++ field
  | .behavior text => "behavior failed: " ++ text
  | .conflict id expected found =>
    "commit conflict on " ++ id.text ++ ": expected version " ++ toString expected.toNat ++
      ", found " ++ toString found.toNat
  | .malformed => "codec error"
  | .badEpoch text => "codec error: bad epoch file: " ++ Text.quote text
  | .io => "io error"
  | .unknownTraveler name => "unknown traveler type: " ++ name
  | .unknownRoot id => "unknown root: " ++ id.text
  | .unfinished => "walk did not finish"

/-- Whether a retry on fresh data may succeed. -/
def isConflict : Error → Bool
  | .conflict .. => true
  | _ => false

end Error

end Wayfarer
