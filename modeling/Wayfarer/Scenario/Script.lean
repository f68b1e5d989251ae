import Wayfarer.Scenario.Call

/-!
# Scripts

A small language for what abilities do. A script is a list of actions; they run
in order and the first failure ends the script. Scripts call each other by name
where they dispatch on a type, to a limited depth. Handles are names that were
noted before, by the scenario or by a script, and a script notes the names that
it gives to what its graph calls answer.

* `Script.conduct` is the meaning of a script.
-/

namespace Wayfarer.Scenario

/-- Places a script asks for: next to the place it runs at, or given by handles.
With `fresh`, those already on the path are left out. -/
inductive Source
  | neighbors (query : NeighborQuery)
  | edges (query : NeighborQuery)
  | handles (ids : List String)
  deriving Inhabited

/-- Places to visit. -/
structure Destinations where
  source : Source
  fresh : Bool
  deriving Inhabited

/-- Which of several places to visit. -/
inductive Choice
  | position (index : Int)
  | field (name : String)
  deriving Inhabited

/-- A condition on the visit. -/
inductive Condition
  | field (name : String) (value : Term)
  | traveler (name : String) (value : Term)
  | type (name : String)
  | travelerType (name : String)
  | pathAtLeast (n : Nat)
  | seen
  | isEdge
  | isNode
  deriving Inhabited

/-- What a dispatch looks at. -/
inductive Subject
  | here
  | traveler
  | type (name : String)
  deriving Inhabited

/-- One action of a script. -/
inductive Action
  | visit (places : Destinations) (count : Bool)
  | visitIndex (places : Destinations) (choice : Choice)
  | visitOrElse (places : Destinations) (otherwise : List Action)
  | report (value : Term)
  | reportField (name : String)
  | reportTraveler (name : String)
  | reportHere
  | reportPathLength
  | set (name : String) (value : Term)
  | increase (name : String) (amount : Int64)
  | disengage
  | skip
  | fail (text : String)
  | sleep (millis : Nat)
  | cancel
  | branch (condition : Condition) (yes no : List Action)
  | dispatch (subject : Subject) (blocks : List (String × String)) (default : String)
  | graph (call : CallTerm) (names : List (Option String)) (tolerant : Bool)
  deriving Inhabited

/-- What scripts refer to: each other, and the token that they can set. -/
structure Library where
  scripts : Table String (List Action)
  token : Option Token

namespace Script

/-- Something resolved where a script runs. An unbound handle is a failure of
the ability. -/
def resolved {α : Type} (read : Scope → Except String α) : Conduct α := do
  match read ⟨some (← Conduct.stop).here, ← Conduct.notes⟩ with
  | .ok a => pure a
  | .error handle => throw (.behavior ("unbound handle " ++ handle))

/-- The places that destinations stand for. -/
def places (d : Destinations) : Conduct (List ObjectId) := do
  let found ←
    match d.source with
    | .neighbors query => Conduct.neighbors query
    | .edges query => Conduct.edges query
    | .handles ids => resolved (·.resolveAll ids)
  let path := (← Conduct.stop).path
  pure (if d.fresh then found.filter fun id => !path.contains id else found)

/-- A field of the traveler. -/
def travelerField (name : String) : Conduct (Option Value) := do
  pure ((← Conduct.fields).get? name)

/-- A field of the place. -/
def placeField (name : String) : Conduct (Option Value) := do
  let here := (← Conduct.stop).here
  Conduct.perform (.get here name)

/-- An integer field of the traveler; zero if there is none. -/
def travelerInt (name : String) : Conduct Int64 := do
  pure (((← travelerField name).bind Value.int?).getD 0)

/-- Whether a condition holds. -/
def holds (c : Condition) : Conduct Bool := do
  let stop ← Conduct.stop
  match c with
  | .field name value => do
    let value ← resolved value.resolve
    pure ((← placeField name).any value.same)
  | .traveler name value => do
    let value ← resolved value.resolve
    pure ((← travelerField name).any value.same)
  | .type name => pure (stop.types.isA stop.hereType (TypeId.ofName name))
  | .travelerType name => pure (stop.types.isA stop.traveler (TypeId.ofName name))
  | .pathAtLeast n => pure (n ≤ stop.path.length)
  | .seen => pure (1 < stop.path.count stop.here)
  | .isEdge => pure !stop.here.isNode
  | .isNode => pure stop.here.isNode

/-- The type that a dispatch looks at. -/
def subjectType (s : Subject) : Conduct TypeId := do
  let stop ← Conduct.stop
  match s with
  | .here => pure stop.hereType
  | .traveler => pure stop.traveler
  | .type name => pure (TypeId.ofName name)

/-- Notes names for objects pairwise, up to the shorter list; a missing name is
passed over. -/
def noteAll : List (Option String) → List ObjectId → Conduct Unit
  | some name :: names, id :: ids => do
    Conduct.deed (.note name id)
    noteAll names ids
  | none :: names, _ :: ids => noteAll names ids
  | _, _ => pure ()

/-- A graph call of a script, with names for what it answers. A tolerant one
reports its failure and goes on. -/
def graphCall (call : CallTerm) (names : List (Option String)) (tolerant : Bool) : Conduct Unit :=
  let attempt : Conduct Unit := do
    let c ← resolved call.resolve
    noteAll names (← c.perform)
  if tolerant then attempt.orElse fun e => Conduct.report (.str e.message) else attempt

mutual

/-- The meaning of an action; `call` is the meaning of a script by name. -/
def action (lib : Library) (call : String → Conduct Unit) : Action → Conduct Unit
  | .visit d count => do
    let found ← places d
    Conduct.visit found
    if count then Conduct.report (.int (Int64.ofNat found.length)) else pure ()
  | .visitIndex d choice => do
    let index ←
      match choice with
      | .position index => pure index
      | .field name => do pure (← travelerInt name).toInt
    let chosen ← Conduct.visitIndex (← places d) index
    Conduct.report (.bool chosen)
  | .visitOrElse d otherwise => do
    Conduct.visitOrElse (← places d) (actions lib call otherwise)
  | .report value => do Conduct.report (← resolved value.resolve)
  | .reportField name => do Conduct.report ((← placeField name).getD .null)
  | .reportTraveler name => do Conduct.report ((← travelerField name).getD .null)
  | .reportHere => do Conduct.report (.ref (← Conduct.stop).here)
  | .reportPathLength => do Conduct.report (.int (Int64.ofNat (← Conduct.stop).path.length))
  | .set name value => do Conduct.deed (.setField name (← resolved value.resolve))
  | .increase name amount => do
    Conduct.deed (.setField name (.int ((← travelerInt name) + amount)))
  | .disengage => Conduct.deed .disengage
  | .skip => Conduct.deed .skip
  | .fail text => throw (.behavior text)
  | .sleep millis => Conduct.deed (.pause millis)
  | .cancel =>
    match lib.token with
    | some token => Conduct.deed (.cancel token)
    | none => pure ()
  | .branch condition yes no => do
    if ← holds condition then actions lib call yes else actions lib call no
  | .dispatch subject blocks default => do
    let subject ← subjectType subject
    Conduct.dispatch subject (blocks.map fun b => (b.1, call b.2)) (call default)
  | .graph c names tolerant => graphCall c names tolerant

/-- The meaning of a list of actions. -/
def actions (lib : Library) (call : String → Conduct Unit) : List Action → Conduct Unit
  | [] => pure ()
  | first :: rest => do
    action lib call first
    actions lib call rest

end

/-- How deep scripts may call each other. -/
def maxDepth : Nat := 100000

/-- The meaning of a script by name, with calls to a given depth. A script that
does not exist does nothing. -/
def named (lib : Library) : Nat → String → Conduct Unit
  | 0, _ => throw (.behavior "scripts nest too deeply")
  | depth + 1, name =>
    match lib.scripts.get? name with
    | some script => actions lib (named lib depth) script
    | none => pure ()

/-- The meaning of a script. -/
def conduct (lib : Library) (name : String) : Conduct Unit := named lib maxDepth name

end Script

end Wayfarer.Scenario
