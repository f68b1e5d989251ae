import Wayfarer.Graph.Op

/-!
# Conduct

What an ability does when it fires. A conduct is a tree of requests: it looks at
the visit, recalls notes, carries out graph operations and deeds, and chooses
each next request from the answers so far. It reaches storage through graph
operations only, and it always comes to an end.

* `Visit` is what one firing can change, `Stop` what it can merely see.
* `Conduct.run` carries a conduct out.
-/

namespace Wayfarer

/-- What a firing sees of its walk: the types, the traveler's type, the place it
stands at, the places entered so far, this one included, and how many firings
came before it. -/
structure Stop where
  types : Taxonomy
  traveler : TypeId
  here : ObjectId
  hereType : TypeId
  path : List ObjectId
  firings : Nat

/-- What a firing can change: the request's desk and the traveler's fields. What
it reports and where it wants to go is added to the walk afterwards. -/
structure Visit (σ : Type) where
  desk : Desk σ
  fields : Fields
  reports : List Value
  queued : List ObjectId
  disengaged : Bool
  skipped : Bool

/-- A visit at which nothing has been done yet. -/
def Visit.start {σ : Type} (desk : Desk σ) (fields : Fields) : Visit σ :=
  ⟨desk, fields, [], [], false, false⟩

/-- The visit after a change to what all requests share. -/
def Visit.onShared {σ : Type} (v : Visit σ) (f : Shared σ → Shared σ) : Visit σ :=
  { v with desk := { v.desk with shared := f v.desk.shared } }

/-- Something that a conduct does besides graph operations. It cannot fail. -/
inductive Deed
  /-- Wants to go to these places, after those asked for earlier. -/
  | visit (places : List ObjectId)
  /-- Brings a value home. -/
  | report (value : Value)
  /-- Sets a field of the traveler. -/
  | setField (name : String) (value : Value)
  /-- Ends the walk here and now. -/
  | disengage
  /-- Leaves out the abilities that would fire after this one. -/
  | skip
  /-- Lets time pass. -/
  | pause (millis : Nat)
  /-- Sets a token. -/
  | cancel (token : Token)
  /-- Takes down a name for an object, in place of an earlier note under that
  name. -/
  | note (name : String) (id : ObjectId)

/-- The visit after a deed. -/
def Deed.apply {σ : Type} (d : Deed) (v : Visit σ) : Visit σ :=
  match d with
  | .visit places => { v with queued := v.queued ++ places }
  | .report value => { v with reports := v.reports ++ [value] }
  | .setField name value => { v with fields := v.fields.set name value }
  | .disengage => { v with disengaged := true }
  | .skip => { v with skipped := true }
  | .pause millis => v.onShared (·.sleep millis)
  | .cancel token => v.onShared fun s => { s with cancelled := s.cancelled.add token }
  | .note name id => v.onShared fun s => { s with notes := s.notes.insert name id }

/-- A tree of requests that ends with a value or a failure. -/
inductive Conduct (α : Type) : Type
  | done (a : α)
  | fail (e : Error)
  | look (next : Stop → Fields → Conduct α)
  | recall (next : Table String ObjectId → Conduct α)
  | act (deed : Deed) (next : Conduct α)
  | graph (op : Op) (next : Except Error op.Answer → Conduct α)

namespace Conduct

/-- One conduct after another. -/
def andThen {α β : Type} : Conduct α → (α → Conduct β) → Conduct β
  | .done a, f => f a
  | .fail e, _ => .fail e
  | .look next, f => .look fun stop fields => (next stop fields).andThen f
  | .recall next, f => .recall fun notes => (next notes).andThen f
  | .act deed next, f => .act deed (next.andThen f)
  | .graph op next, f => .graph op fun answer => (next answer).andThen f

/-- A conduct with another one in place of its failure. -/
def orElse {α : Type} : Conduct α → (Error → Conduct α) → Conduct α
  | .done a, _ => .done a
  | .fail e, f => f e
  | .look next, f => .look fun stop fields => (next stop fields).orElse f
  | .recall next, f => .recall fun notes => (next notes).orElse f
  | .act deed next, f => .act deed (next.orElse f)
  | .graph op next, f => .graph op fun answer => (next answer).orElse f

instance : Monad Conduct where
  pure := done
  bind := andThen

instance : MonadExcept Error Conduct where
  throw := fail
  tryCatch := orElse

/-- What can be seen from here. -/
def stop : Conduct Stop := .look fun stop _ => .done stop

/-- The traveler's fields. -/
def fields : Conduct Fields := .look fun _ fields => .done fields

/-- The notes taken so far, by this walk and by others. -/
def notes : Conduct (Table String ObjectId) := .recall .done

/-- A deed by itself. -/
def deed (d : Deed) : Conduct Unit := .act d (.done ())

/-- A graph operation by itself; its failure is the conduct's. -/
def perform (op : Op) : Conduct op.Answer :=
  .graph op fun
    | .ok a => .done a
    | .error e => .fail e

/-- Wants to go to places. -/
def visit (places : List ObjectId) : Conduct Unit := deed (.visit places)

/-- Brings a value home. -/
def report (value : Value) : Conduct Unit := deed (.report value)

/-- The neighbors of the place; an edge has none. -/
def neighbors (q : NeighborQuery) : Conduct (List ObjectId) := do
  match (← stop).here with
  | .node here => do pure ((← perform (.neighbors here q)).map ObjectId.node)
  | .edge _ => pure []

/-- The edges of the place; an edge has none. -/
def edges (q : NeighborQuery) : Conduct (List ObjectId) := do
  match (← stop).here with
  | .node here => do pure ((← perform (.edges here q)).map ObjectId.edge)
  | .edge _ => pure []

/-- The item at a position; a negative position counts from the end. -/
def itemAt? {α : Type} (items : List α) (index : Int) : Option α :=
  if 0 ≤ index then items[index.toNat]?
  else if index.natAbs ≤ items.length then items[items.length - index.natAbs]?
  else none

/-- Wants to go to one of several places; the answer tells whether there is one
at that position. -/
def visitIndex (places : List ObjectId) (index : Int) : Conduct Bool := do
  match itemAt? places index with
  | some place =>
    visit [place]
    pure true
  | none => pure false

/-- Wants to go to places; if there are none, does something else. -/
def visitOrElse (places : List ObjectId) (otherwise : Conduct Unit) : Conduct Unit := do
  visit places
  if places.isEmpty then otherwise else pure ()

/-- One of several conducts: that of the type nearest above the subject, or the
default. -/
def dispatch (subject : TypeId) (blocks : List (String × Conduct Unit)) (default : Conduct Unit) :
    Conduct Unit := do
  let candidates := blocks.map fun b => TypeId.ofName b.1
  match ((← stop).types.mostSpecific subject candidates).bind (blocks[·]?) with
  | some block => block.2
  | none => default

/-- Carries a conduct out on behalf of an actor. -/
def run {σ α : Type} [Durable σ] (actor : Actor) (stop : Stop) :
    Conduct α → EStateM Error (Visit σ) α
  | .done a => fun v => .ok a v
  | .fail e => fun v => .error e v
  | .look next => fun v => (next stop v.fields).run actor stop v
  | .recall next => fun v => (next v.desk.shared.notes).run actor stop v
  | .act deed next => fun v => next.run actor stop (deed.apply v)
  | .graph op next => fun v =>
    match op.run actor v.desk with
    | .ok a desk => (next (.ok a)).run actor stop { v with desk := desk }
    | .error e desk => (next (.error e)).run actor stop { v with desk := desk }

end Conduct

/-- Monads in which graph operations can be carried out. -/
class GraphMonad (m : Type → Type) where
  perform : (op : Op) → m op.Answer

instance : GraphMonad Conduct := ⟨Conduct.perform⟩

instance {σ : Type} [Durable σ] : GraphMonad (ReaderT Actor (Work σ)) :=
  ⟨fun op actor => op.run actor⟩

end Wayfarer
