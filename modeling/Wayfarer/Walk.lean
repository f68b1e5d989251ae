import Wayfarer.Walk.Conduct

/-!
# Walks

A traveler walks over the graph depth first. Entering a place fires the entry
abilities, which may ask for further places; those are entered, with everything
below them, in the order asked for. When no place on the stack has anything left
to visit, the stack unwinds: each place fires its exit abilities once, the last
entered first, and these may ask for more places again.

* `Walk.advance` is one transition, `Walk.run` the whole walk.
* Limits are seen between transitions only: a firing that has started is run to
  its end.
-/

namespace Wayfarer

/-- Why a walk stopped. -/
inductive Halt
  | completed | disengaged | cancelled | timedOut | stepLimit
  deriving DecidableEq, Inhabited

/-- The word for a halt. -/
def Halt.text : Halt → String
  | .completed => "Completed"
  | .disengaged => "Disengaged"
  | .cancelled => "Cancelled"
  | .timedOut => "TimedOut"
  | .stepLimit => "StepLimit"

/-- Whether what the walk changed is committed. -/
def Halt.commits : Halt → Bool
  | .completed | .disengaged => true
  | .cancelled | .timedOut | .stepLimit => false

/-- One line of a walk's trace. -/
inductive TraceStep
  | entry (place : ObjectId)
  | exit (place : ObjectId)
  deriving DecidableEq, Inhabited

/-- A firing that failed. -/
structure Mishap where
  ability : String
  place : ObjectId
  cause : Error
  deriving DecidableEq

/-- Who walks, and what became of the walk so far. -/
structure Traveler where
  type : TypeId
  fields : Fields
  path : List ObjectId
  reports : List Value
  aborted : Bool
  trace : List TraceStep
  faults : List Mishap

/-- A traveler that has not moved yet. -/
def Traveler.new (type : TypeId) (fields : Fields) : Traveler :=
  ⟨type, fields, [], [], false, [], []⟩

/-- The outcome of a walk. -/
structure Journey where
  traveler : Traveler
  halt : Halt
  steps : Nat

/-- A place on the stack and the places to visit from it. -/
structure Frame where
  place : ObjectId
  placeType : TypeId
  queue : List ObjectId
  exited : Bool

/-- The state between two transitions. The top of the stack comes first;
`pending` is the place to enter next and the place it was asked for at; `steps`
counts the places entered and `firings` the abilities fired. -/
structure WalkState (σ : Type) where
  desk : Desk σ
  traveler : Traveler
  steps : Nat
  firings : Nat
  stack : List Frame
  pending : Option (ObjectId × Option ObjectId)

/-- What each ability does when it fires. -/
abbrev Semantics (σ : Type) := Ability → Stop → EStateM Error (Visit σ) Unit

/-- Limits of a walk. The budget is in milliseconds. -/
structure Limits where
  budget : Option Nat
  maxSteps : Option Nat
  token : Option Token
  deriving DecidableEq, Inhabited

/-- Why a walk that started at some moment has to stop now. -/
def Limits.gate {σ : Type} (l : Limits) (started : Instant) (s : WalkState σ) : Option Halt :=
  let shared := s.desk.shared
  if l.token.any shared.cancelled.contains then some .cancelled
  else if l.budget.any fun b => b * ticksPerMilli ≤ shared.now - started then some .timedOut
  else none

/-- Everything that is fixed during a walk: who walks for whom, what abilities
do, when the walk is stopped from outside, and how many places it may enter. -/
structure Walk (σ : Type) where
  actor : Actor
  semantics : Semantics σ
  gate : WalkState σ → Option Halt
  maxSteps : Option Nat

/-- The result of a transition. -/
inductive Turn (σ : Type)
  | goOn (s : WalkState σ)
  | halt (h : Halt) (s : WalkState σ)
  | fail (e : Error) (s : WalkState σ)

namespace Walk

variable {σ : Type} [Durable σ]

/-- The state of a series of firings at one place. -/
structure Firing (σ : Type) where
  desk : Desk σ
  traveler : Traveler
  queue : List ObjectId
  count : Nat

/-- What a firing leaves behind. -/
def Firing.absorb (f : Firing σ) (v : Visit σ) (faults : List Mishap) : Firing σ where
  desk := v.desk
  traveler := { f.traveler with
    fields := v.fields,
    reports := f.traveler.reports ++ v.reports,
    aborted := f.traveler.aborted || v.disengaged,
    faults := f.traveler.faults ++ faults }
  queue := f.queue ++ v.queued
  count := f.count + 1

/-- Fires abilities at a place until one disengages or skips the rest. A failure
is noted and does not stop the others. -/
def fire (w : Walk σ) (place : ObjectId) (placeType : TypeId) :
    List Ability → Firing σ → Firing σ
  | [], f => f
  | ability :: rest, f =>
    let t := f.traveler
    let stop : Stop := ⟨w.actor.rulebook.types, t.type, place, placeType, t.path, f.count⟩
    match w.semantics ability stop (Visit.start f.desk t.fields) with
    | .ok _ v =>
      let f := f.absorb v []
      if f.traveler.aborted || v.skipped then f else fire w place placeType rest f
    | .error e v =>
      let f := f.absorb v [⟨ability.name, place, e⟩]
      if f.traveler.aborted || v.skipped then f else fire w place placeType rest f

/-- Fires what an event calls for at a place. -/
def fireAll (w : Walk σ) (event : Event) (place : ObjectId) (placeType : TypeId) (f : Firing σ) :
    Firing σ :=
  w.fire place placeType (w.actor.rulebook.behaviors f.traveler.type placeType event) f

/-- The type of a place to enter and the places to visit from it before anything
fires: an edge leads to its far end. `none` if the place is missing or may not
be read. -/
def arrive (actor : Actor) (place : ObjectId) (origin : Option ObjectId) :
    Work σ (Option (TypeId × List ObjectId)) := do
  match ← actor.readableType place with
  | none => pure none
  | some type =>
    match place with
    | .node _ => pure (some (type, []))
    | .edge id =>
      tryCatch
        (do
          let e ← actor.edge id
          pure (some (type, [.node (e.farEnd (origin.bind ObjectId.node?))])))
        fun
        | .notFound _ => pure none
        | .denied .. => pure none
        | e => throw e

/-- The next turn after a place was dealt with. -/
def settle (s : WalkState σ) : Turn σ :=
  if s.traveler.aborted then .halt .disengaged s else .goOn s

/-- Enters a place, or passes it over. -/
def enter (w : Walk σ) (s : WalkState σ) (place : ObjectId) (origin : Option ObjectId) : Turn σ :=
  match arrive w.actor place origin s.desk with
  | .error e desk => .fail e { s with desk := desk }
  | .ok none desk => settle { s with desk := desk }
  | .ok (some (type, seeds)) desk =>
    let t := s.traveler
    let t := { t with path := t.path ++ [place], trace := t.trace ++ [.entry place] }
    let f := w.fireAll .entry place type ⟨desk, t, seeds, s.firings⟩
    settle { s with
      desk := f.desk,
      traveler := f.traveler,
      steps := s.steps + 1,
      firings := f.count,
      stack := ⟨place, type, f.queue, false⟩ :: s.stack }

/-- Begins to leave the place on top of the stack. -/
def leave (w : Walk σ) (s : WalkState σ) (top : Frame) (below : List Frame) : Turn σ :=
  let t := s.traveler
  let t := { t with trace := t.trace ++ [.exit top.place] }
  let f := w.fireAll .exit top.place top.placeType ⟨s.desk, t, [], s.firings⟩
  settle { s with
    desk := f.desk,
    traveler := f.traveler,
    firings := f.count,
    stack := { top with exited := true, queue := top.queue ++ f.queue } :: below }

/-- The first place to visit from the topmost frame that has one, where it was
asked for, and the stack without it. -/
def takeNext : List Frame → Option (ObjectId × ObjectId × List Frame)
  | [] => none
  | frame :: below =>
    match frame.queue with
    | next :: queue => some (next, frame.place, { frame with queue := queue } :: below)
    | [] => (takeNext below).map fun (next, origin, below) => (next, origin, frame :: below)

/-- Whether no further place may be entered. -/
def exhausted (w : Walk σ) (steps : Nat) : Bool := w.maxSteps.any fun most => most ≤ steps

/-- One transition. -/
def advance (w : Walk σ) (s : WalkState σ) : Turn σ :=
  match w.gate s with
  | some halt => .halt halt s
  | none =>
    match s.pending with
    | some (place, origin) =>
      if w.exhausted s.steps then .halt .stepLimit s
      else w.enter { s with pending := none } place origin
    | none =>
      match takeNext s.stack with
      | some (next, origin, stack) =>
        .goOn { s with stack := stack, pending := some (next, some origin) }
      | none =>
        match s.stack with
        | [] => .halt .completed s
        | top :: below =>
          if top.exited then .goOn { s with stack := below } else w.leave s top below

/-- Transitions until the walk halts or fails. A walk may go on for ever, so it
is given fuel. -/
def loop (w : Walk σ) : Nat → WalkState σ → EStateM.Result Error (Desk σ) Journey
  | 0, s => .error .unfinished s.desk
  | fuel + 1, s =>
    match w.advance s with
    | .goOn s => loop w fuel s
    | .halt h s => .ok ⟨s.traveler, h, s.steps⟩ s.desk
    | .fail e s => .error e s.desk

/-- The state before the first transition. -/
def initial (desk : Desk σ) (traveler : Traveler) (start : ObjectId) : WalkState σ :=
  ⟨desk, traveler, 0, 0, [], some (start, none)⟩

/-- The whole walk of a traveler from a place. -/
def run (w : Walk σ) (fuel : Nat) (traveler : Traveler) (start : ObjectId) : Work σ Journey :=
  fun desk => w.loop fuel (initial desk traveler start)

end Walk

end Wayfarer
