import Wayfarer.Fields

/-!
# Taxonomy

Types of nodes, edges and walkers. Each type may have one parent of its own
kind, so the types form a forest; a type's lineage runs from itself up to a type
without parent. Lineages and merged defaults are computed once, when the
declarations are accepted.

* `Taxonomy.build` accepts declarations or says why it does not.
* `Taxonomy.lineage`, `Taxonomy.isA` and `Taxonomy.mostSpecific` read the
  forest.
* `Taxonomy.defaults` is a type's field record: inherited fields first, nearest
  declaration wins.
-/

namespace Wayfarer

/-- What a type describes. -/
inductive Kind
  | node | edge | walker
  deriving DecidableEq, Inhabited

/-- The word for a kind in messages. -/
def Kind.text : Kind → String
  | .node => "Node"
  | .edge => "Edge"
  | .walker => "Walker"

/-- The name of the type that every tenant root has. -/
def rootTypeName : String := "root"

/-- The type that every tenant root has. -/
def rootType : TypeId := TypeId.ofName rootTypeName

/-- The name of the edge type used when none is given. -/
def plainEdgeName : String := "edge"

/-- A declaration of a type, its parent given by name. -/
structure TypeDecl where
  name : String
  kind : Kind
  parent : Option String
  fields : Fields
  deriving Inhabited

/-- An accepted type. Its fields are those it declares itself. -/
structure Archetype where
  id : TypeId
  name : String
  kind : Kind
  parent : Option TypeId
  fields : Fields
  deriving Inhabited

/-- Why a schema is refused. -/
inductive SchemaError
  | duplicateType (name : String)
  | unknownParent (type parent : String)
  | kindMismatch (type parent : String)
  | cycle (name : String)
  | duplicateAbility (name : String)
  | unknownAbilityType (ability type : String)
  deriving DecidableEq

/-- The wording of a refusal. -/
def SchemaError.message : SchemaError → String
  | .duplicateType name => "duplicate type: " ++ name
  | .unknownParent type parent => "type " ++ type ++ " has unknown parent " ++ parent
  | .kindMismatch type parent =>
    "type " ++ type ++ " cannot inherit from " ++ parent ++ ": kinds differ"
  | .cycle name => "inheritance cycle through " ++ name
  | .duplicateAbility name => "duplicate ability: " ++ name
  | .unknownAbilityType ability type =>
    "ability " ++ ability ++ " references unknown type " ++ type

/-- A forest of types with lineages and merged defaults. -/
structure Taxonomy where
  types : Table TypeId Archetype
  lineages : Table TypeId (List TypeId)
  merged : Table TypeId Fields
  deriving Inhabited

namespace Taxonomy

/-- The first name that stands in the list a second time. -/
def firstRepeat : List String → List String → Option String
  | _, [] => none
  | seen, name :: rest => if name ∈ seen then some name else firstRepeat (name :: seen) rest

/-- One declaration with its parent resolved among all declarations. -/
def resolveDecl (decls : List TypeDecl) (decl : TypeDecl) : Except SchemaError Archetype :=
  let accept (parent : Option TypeId) : Archetype :=
    ⟨TypeId.ofName decl.name, decl.name, decl.kind, parent, decl.fields⟩
  match decl.parent with
  | none => .ok (accept none)
  | some parent =>
    match decls.find? (fun d => d.name == parent) with
    | none => .error (.unknownParent decl.name parent)
    | some above =>
      if above.kind = decl.kind then .ok (accept (some (TypeId.ofName parent)))
      else .error (.kindMismatch decl.name parent)

/-- The lineage so far continued through the given parent; `none` when the chain
closes on itself or is longer than there are types. -/
def climb (types : Table TypeId Archetype) :
    Nat → List TypeId → Option TypeId → Option (List TypeId)
  | _, lineage, none => some lineage
  | 0, _, some _ => none
  | fuel + 1, lineage, some p =>
    if p ∈ lineage then none
    else climb types fuel (lineage ++ [p]) ((types.get? p).bind (·.parent))

/-- The lineage of an accepted type. -/
def lineageOf (types : Table TypeId Archetype) (a : Archetype) : Except SchemaError (List TypeId) :=
  match climb types types.size [a.id] a.parent with
  | some lineage => .ok lineage
  | none => .error (.cycle a.name)

/-- The fields along a lineage, oldest ancestor first. -/
def mergeDefaults (types : Table TypeId Archetype) (lineage : List TypeId) : Fields :=
  lineage.reverse.foldl
    (fun acc id =>
      match types.get? id with
      | some a => acc.overlay a.fields
      | none => acc)
    Fields.empty

/-- The taxonomy of a list of declarations. A repeated name is refused first,
then the first bad parent in declaration order, then a cycle. -/
def build (decls : List TypeDecl) : Except SchemaError Taxonomy := do
  match firstRepeat [] (decls.map (·.name)) with
  | some name => .error (.duplicateType name)
  | none => pure ()
  let archetypes ← decls.mapM (resolveDecl decls)
  let types := Table.ofList (archetypes.map fun a => (a.id, a))
  let lineages ← types.values.mapM fun a => do pure (a.id, ← lineageOf types a)
  let merged := lineages.map fun (id, lineage) => (id, mergeDefaults types lineage)
  pure ⟨types, Table.ofList lineages, Table.ofList merged⟩

/-- An accepted type by identity. -/
def get? (t : Taxonomy) (type : TypeId) : Option Archetype := t.types.get? type

/-- The identity of a declared type. -/
def resolve (t : Taxonomy) (name : String) : Option TypeId :=
  let id := TypeId.ofName name
  if t.types.contains id then some id else none

/-- The identity of a declared type of a given kind. -/
def resolveKind (t : Taxonomy) (kind : Kind) (name : String) : Option TypeId :=
  let id := TypeId.ofName name
  match t.types.get? id with
  | some a => if a.kind = kind then some id else none
  | none => none

/-- The name of a declared type. -/
def name? (t : Taxonomy) (type : TypeId) : Option String := (t.types.get? type).map (·.name)

/-- The kind of a declared type. -/
def kind? (t : Taxonomy) (type : TypeId) : Option Kind := (t.types.get? type).map (·.kind)

/-- A type and its ancestors, nearest first; empty for an undeclared type. -/
def lineage (t : Taxonomy) (type : TypeId) : List TypeId := (t.lineages.get? type).getD []

/-- How many steps up `ancestor` stands in the lineage of `type`. -/
def distance (t : Taxonomy) (type ancestor : TypeId) : Option Nat :=
  (t.lineage type).findIdx? (fun x => x == ancestor)

/-- Whether `type` is `ancestor` or descends from it. -/
def isA (t : Taxonomy) (type ancestor : TypeId) : Bool := (t.distance type ancestor).isSome

/-- The nearer of two ranked positions; the earlier one of two equally near. -/
def nearer (best : Option (Nat × Nat)) (next : Nat × Nat) : Option (Nat × Nat) :=
  match best with
  | none => some next
  | some b => if next.1 < b.1 then some next else some b

/-- The position of the candidate nearest above `type`, the first of equals. -/
def mostSpecific (t : Taxonomy) (type : TypeId) (candidates : List TypeId) : Option Nat :=
  let ranked := candidates.mapIdx fun i c => (t.distance type c).map fun d => (d, i)
  ((ranked.filterMap id).foldl nearer none).map (·.2)

/-- The merged defaults of a declared type. -/
def defaults (t : Taxonomy) (type : TypeId) : Option Fields := t.merged.get? type

/-- All types in the order of their identities. -/
def toList (t : Taxonomy) : List Archetype := t.types.values

end Taxonomy

end Wayfarer
