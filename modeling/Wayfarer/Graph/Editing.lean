import Wayfarer.Graph.Linking

/-!
# Editing objects

Changing the fields and the access list of an object. Both ask for the level
`write`. A change to one half of an undirected link is made to its twin as well.
-/

namespace Wayfarer

namespace Actor

variable {σ : Type} [Durable σ]

/-- Changes an object and, if it is half of an undirected link, the other half.
The answer is the object before the change. -/
def updateLinked (id : ObjectId) (change : Anchor → Anchor) : Work σ Anchor := do
  let before ← part id (← Desk.update? id change)
  match before.edge?.bind (·.twin) with
  | none => pure before
  | some twin =>
    let _ ← part (.edge twin) (← Desk.update? (.edge twin) change)
    pure before

/-- Sets a declared field; the answer is its value before. -/
def setField (actor : Actor) (id : ObjectId) (field : String) (value : Value) :
    Work σ (Option Value) := do
  let type := (← actor.check id .write).type
  match actor.fieldFault? type (actor.declared type) field value with
  | some e => throw e
  | none =>
    let before ← updateLinked id fun a => a.withFields (a.fields.set field value)
    pure (before.fields.get? field)

/-- Changes the access list of an object; the answer is the list before. -/
def changeAccess (actor : Actor) (id : ObjectId) (change : Access → Access) : Work σ Access := do
  let _ ← actor.check id .write
  pure (← updateLinked id fun a => { a with access := change a.access }).access

/-- Gives everybody a level. -/
def grant (actor : Actor) (id : ObjectId) (level : Level) : Work σ Unit := do
  let _ ← actor.changeAccess id (·.grant level)

/-- Takes everybody's level away. -/
def revoke (actor : Actor) (id : ObjectId) : Work σ Unit := do
  let _ ← actor.changeAccess id Access.revoke

/-- Gives one tenant a level. -/
def allow (actor : Actor) (id : ObjectId) (root : RootId) (level : Level) : Work σ Unit := do
  let _ ← actor.changeAccess id (·.allow root level)

/-- Takes one tenant's level away; the answer tells whether it had one. -/
def disallow (actor : Actor) (id : ObjectId) (root : RootId) : Work σ Bool := do
  pure ((← actor.changeAccess id (·.disallow root)).roots.contains root)

end Actor

end Wayfarer
