import Wayfarer.Taxonomy
import Wayfarer.Text.Quoted

/-!
# Rulebook

A taxonomy together with abilities. An ability fires when a traveler enters or
leaves a place. It is owned by a type of walker and filters on the place, or it
is owned by a type of place and filters on the traveler. What firing does is no
matter of the rulebook: bodies are attached to abilities by name when a walk
runs.

* `Rulebook.build` resolves all names of a schema and computes the duties of
  each type.
* `Rulebook.behaviors` lists what fires for a traveler at a place, in firing
  order.
-/

namespace Wayfarer

/-- When an ability fires. -/
inductive Event
  | entry | exit
  deriving DecidableEq, Inhabited

/-- The word for an event. -/
def Event.text : Event → String
  | .entry => "Entry"
  | .exit => "Exit"

/-- Whose type owns an ability. -/
inductive Side
  | traveler | place
  deriving DecidableEq, Inhabited

/-- The word for a side. -/
def Side.text : Side → String
  | .traveler => "Traveler"
  | .place => "Place"

/-- Which types an ability looks for on the other side. -/
inductive TypeFilter
  | any
  | oneOf (types : List TypeId)
  deriving DecidableEq, Inhabited

/-- A filter lets a type pass if the type is or descends from one it lists. -/
def TypeFilter.accepts (filter : TypeFilter) (t : Taxonomy) (type : TypeId) : Bool :=
  match filter with
  | .any => true
  | .oneOf types => types.any fun listed => t.isA type listed

/-- A declaration of an ability; an empty filter accepts everything. -/
structure AbilityDecl where
  name : String
  owner : String
  event : Event
  filter : List String
  deriving Inhabited

/-- An accepted ability; `place` in the declaration order is `seq`. -/
structure Ability where
  name : String
  owner : TypeId
  side : Side
  event : Event
  filter : TypeFilter
  seq : Nat
  deriving DecidableEq, Inhabited

/-- A short description for diagnostics. -/
def Ability.describe (a : Ability) : String :=
  "Ability \x7b name: " ++ Text.quote a.name ++ ", side: " ++ a.side.text ++ ", event: " ++
    a.event.text ++ ", seq: " ++ toString a.seq ++ ", .. \x7d"

/-- Declarations of types and abilities, in order. -/
structure Schema where
  types : List TypeDecl
  abilities : List AbilityDecl
  deriving Inhabited

/-- The two types that every schema starts with: tenant roots and plain
edges. -/
def Schema.base : Schema where
  types := [⟨rootTypeName, .node, none, Fields.empty⟩, ⟨plainEdgeName, .edge, none, Fields.empty⟩]
  abilities := []

/-- A schema continued by further declarations. -/
def Schema.extend (s : Schema) (types : List TypeDecl) (abilities : List AbilityDecl) : Schema :=
  ⟨s.types ++ types, s.abilities ++ abilities⟩

/-- What a type owns, its own and inherited, in declaration order. -/
structure Duties where
  onEntry : List Ability
  onExit : List Ability
  deriving Inhabited

/-- A taxonomy with its abilities. -/
structure Rulebook where
  types : Taxonomy
  abilities : List Ability
  duties : Table TypeId Duties
  deriving Inhabited

namespace Rulebook

/-- A type name resolved on behalf of an ability. -/
def resolveFor (t : Taxonomy) (ability : String) (name : String) : Except SchemaError TypeId :=
  match t.resolve name with
  | some id => .ok id
  | none => .error (.unknownAbilityType ability name)

/-- One ability with its names resolved, after the abilities `seen`. -/
def resolveAbility (t : Taxonomy) (seen : List String) (seq : Nat) (decl : AbilityDecl) :
    Except SchemaError Ability := do
  if decl.name ∈ seen then
    .error (.duplicateAbility decl.name)
  let owner ← resolveFor t decl.name decl.owner
  let side := if t.kind? owner = some .walker then Side.traveler else Side.place
  let types ← decl.filter.mapM (resolveFor t decl.name)
  let filter := if decl.filter.isEmpty then TypeFilter.any else .oneOf types
  pure ⟨decl.name, owner, side, decl.event, filter, seq⟩

/-- All abilities in declaration order. -/
def resolveAbilities (t : Taxonomy) :
    List String → Nat → List AbilityDecl → Except SchemaError (List Ability)
  | _, _, [] => .ok []
  | seen, seq, decl :: rest => do
    let ability ← resolveAbility t seen seq decl
    let more ← resolveAbilities t (decl.name :: seen) (seq + 1) rest
    pure (ability :: more)

/-- The abilities owned along a lineage. -/
def dutiesOf (abilities : List Ability) (lineage : List TypeId) : Duties :=
  let own := abilities.filter fun a => lineage.contains a.owner
  ⟨own.filter (·.event = .entry), own.filter (·.event = .exit)⟩

/-- The rulebook of a schema. -/
def build (s : Schema) : Except SchemaError Rulebook := do
  let types ← Taxonomy.build s.types
  let abilities ← resolveAbilities types [] 0 s.abilities
  pure ⟨types, abilities, types.lineages.mapValues fun _ lineage => dutiesOf abilities lineage⟩

/-- The abilities a type owns for an event. -/
def owned (r : Rulebook) (type : TypeId) (event : Event) : List Ability :=
  match r.duties.get? type, event with
  | some d, .entry => d.onEntry
  | some d, .exit => d.onExit
  | none, _ => []

/-- What fires when a traveler meets a place: on entry the traveler's abilities
come first, on exit the place's. -/
def behaviors (r : Rulebook) (traveler place : TypeId) (event : Event) : List Ability :=
  let fromTraveler := (r.owned traveler event).filter fun a => a.filter.accepts r.types place
  let fromPlace := (r.owned place event).filter fun a => a.filter.accepts r.types traveler
  match event with
  | .entry => fromTraveler ++ fromPlace
  | .exit => fromPlace ++ fromTraveler

end Rulebook

end Wayfarer
