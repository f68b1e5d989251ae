import Wayfarer.Realm
import Wayfarer.Proofs.Walking

/-!
# A journal of requests

One tenant's requests to a realm, one after another, and what is to be noted of
them: every operation with the desk at which it is carried out, and every commit
that succeeds with the desk before and after.

* `Realm.play` is the realm after a list of requests, `Realm.journal` what was
  noted.
* `Conduct.ops` and `Walk.ops` list the operations of a conduct and of a walk.
-/

namespace Wayfarer

/-- Where work ends, whether it succeeds or fails. -/
def endOf {τ α : Type} (w : EStateM Error τ α) (s : τ) : τ :=
  match w s with
  | .ok _ s => s
  | .error _ s => s

/-- Something noted in the course of requests. -/
inductive Incident (σ : Type)
  /-- An operation is about to be carried out. -/
  | performs (desk : Desk σ) (op : Op)
  /-- A request asked for a commit and got it. -/
  | commits (before after : Desk σ)

/-- What is noted of an attempt to commit. -/
def Desk.attempt {σ α : Type} (w : Work σ α) (d : Desk σ) : List (Incident σ) :=
  match w d with
  | .ok _ d' => [.commits d d']
  | .error _ _ => []

variable {σ : Type} [Durable σ]

/-! ## Walks -/

/-- The operations that a conduct carries out, each with the desk at which it
does. -/
def Conduct.ops {α : Type} (actor : Actor) (stop : Stop) :
    Conduct α → Visit σ → List (Desk σ × Op)
  | .done _, _ => []
  | .fail _, _ => []
  | .look next, v => (next stop v.fields).ops actor stop v
  | .recall next, v => (next v.desk.shared.notes).ops actor stop v
  | .act deed next, v => next.ops actor stop (deed.apply v)
  | .graph op next, v =>
    (v.desk, op) ::
      match op.run actor v.desk with
      | .ok a desk => (next (.ok a)).ops actor stop { v with desk := desk }
      | .error e desk => (next (.error e)).ops actor stop { v with desk := desk }

namespace Walk

variable (done : Ability → Stop → Visit σ → List (Desk σ × Op)) (w : Walk σ)

/-- The operations of a series of firings; `done` lists those of one firing. -/
def fireOps (place : ObjectId) (placeType : TypeId) :
    List Ability → Firing σ → List (Desk σ × Op)
  | [], _ => []
  | ability :: rest, f =>
    let t := f.traveler
    let stop : Stop := ⟨w.actor.rulebook.types, t.type, place, placeType, t.path, f.count⟩
    let visit := Visit.start f.desk t.fields
    done ability stop visit ++
      match w.semantics ability stop visit with
      | .ok _ v =>
        let f := f.absorb v []
        if f.traveler.aborted || v.skipped then [] else fireOps place placeType rest f
      | .error e v =>
        let f := f.absorb v [⟨ability.name, place, e⟩]
        if f.traveler.aborted || v.skipped then [] else fireOps place placeType rest f

/-- The operations of all that an event calls for at a place. -/
def fireAllOps (event : Event) (place : ObjectId) (placeType : TypeId) (f : Firing σ) :
    List (Desk σ × Op) :=
  w.fireOps done place placeType (w.actor.rulebook.behaviors f.traveler.type placeType event) f

/-- The operations of entering a place. -/
def enterOps (s : WalkState σ) (place : ObjectId) (origin : Option ObjectId) :
    List (Desk σ × Op) :=
  match arrive w.actor place origin s.desk with
  | .error _ _ => []
  | .ok none _ => []
  | .ok (some (type, seeds)) desk =>
    let t := s.traveler
    let t := { t with path := t.path ++ [place], trace := t.trace ++ [.entry place] }
    w.fireAllOps done .entry place type ⟨desk, t, seeds, s.firings⟩

/-- The operations of leaving the place on top of the stack. -/
def leaveOps (s : WalkState σ) (top : Frame) : List (Desk σ × Op) :=
  let t := s.traveler
  let t := { t with trace := t.trace ++ [.exit top.place] }
  w.fireAllOps done .exit top.place top.placeType ⟨s.desk, t, [], s.firings⟩

/-- The operations of one transition. -/
def advanceOps (s : WalkState σ) : List (Desk σ × Op) :=
  match w.gate s with
  | some _ => []
  | none =>
    match s.pending with
    | some (place, origin) =>
      if w.exhausted s.steps then [] else w.enterOps done { s with pending := none } place origin
    | none =>
      match takeNext s.stack with
      | some _ => []
      | none =>
        match s.stack with
        | [] => []
        | top :: _ => if top.exited then [] else w.leaveOps done s top

/-- The operations of a walk. -/
def ops : Nat → WalkState σ → List (Desk σ × Op)
  | 0, _ => []
  | fuel + 1, s =>
    w.advanceOps done s ++
      match w.advance s with
      | .goOn s => ops fuel s
      | .halt _ _ => []
      | .fail _ _ => []

end Walk

/-! ## Sessions -/

/-- What a tenant does in a session. -/
inductive Doing
  | perform (op : Op)
  | commit
  | rollback
  | evict
  | wait (millis : Nat)

/-- The work of it. -/
def Doing.run (actor : Actor) : Doing → Work σ Unit
  | .perform op => do
    let _ ← op.run actor
  | .commit => do
    let _ ← Desk.conclude actor.requester
  | .rollback => Desk.onDraft Draft.rollback
  | .evict => Desk.onDraft Draft.evictVolatile
  | .wait millis => modify fun d => { d with shared := d.shared.sleep millis }

/-- What is noted of it. -/
def Doing.journal (actor : Actor) (d : Desk σ) : Doing → List (Incident σ)
  | .perform op => [.performs d op]
  | .commit => Desk.attempt (Desk.conclude actor.requester) d
  | .rollback | .evict | .wait _ => []

namespace Desk

/-- The desk of a session after some doings. A failure keeps what was done
before it. -/
def attend (actor : Actor) (d : Desk σ) (doings : List Doing) : Desk σ :=
  doings.foldl (fun d doing => endOf (doing.run actor) d) d

/-- What is noted of a session. -/
def journal (actor : Actor) (d : Desk σ) : List Doing → List (Incident σ)
  | [] => []
  | doing :: rest => doing.journal actor d ++ (endOf (doing.run actor) d).journal actor rest

end Desk

/-! ## Requests -/

/-- What is asked of a realm: the root of some tenant, or that the tenant works
in a session or sends a traveler on a walk. In between, time passes. -/
inductive Request
  | createRoot (tenant : String)
  | session (doings : List Doing)
  | spawn (conduct : Ability → Conduct Unit) (fuel : Nat) (request : SpawnRequest)
  | wait (millis : Nat)

/-- A walk about to begin: the walk, who goes, and from where. -/
structure Departure (σ : Type) where
  walk : Walk σ
  traveler : Traveler
  start : ObjectId

namespace Realm

/-- What is noted of a request for a root. -/
def founding (root : RootId) (d : Desk σ) : List (Incident σ) :=
  match Actor.insertRoot root d with
  | .ok true d => Desk.attempt Desk.commit d
  | .ok false _ => []
  | .error _ _ => []

/-- What comes before a walk. -/
def depart (r : Realm σ) (semantics : Semantics σ) (root : RootId) (request : SpawnRequest) :
    Work σ (Departure σ) := do
  let actor := r.actor root
  requireRoot actor
  match r.rulebook.types.resolveKind .walker request.traveler with
  | none => throw (.unknownTraveler request.traveler)
  | some type =>
    let fields ← actor.fillFields type request.fields
    let start := request.start.getD root
    let _ ← actor.typeOf start
    let limits := request.limits.orElse r.config
    let started := (← get).shared.now
    pure ⟨⟨actor, semantics, limits.gate started, limits.maxSteps⟩, Traveler.new type fields, start⟩

/-- The end of a walk. -/
def arrival (root : RootId) (journey : Journey) : Work σ Journey := do
  if journey.halt.commits then
    let _ ← Desk.conclude root
  pure journey

theorem journey_eq (r : Realm σ) (semantics : Semantics σ) (fuel : Nat) (root : RootId)
    (request : SpawnRequest) : r.journey semantics fuel root request = (do
      let departure ← r.depart semantics root request
      let journey ← departure.walk.run fuel departure.traveler departure.start
      arrival root journey) := by
  unfold journey depart arrival
  simp only [bind_assoc]
  refine congrArg _ (funext fun _ => ?_)
  cases r.rulebook.types.resolveKind .walker request.traveler with
  | none => rfl
  | some type => simp only [bind_assoc, pure_bind]

/-- What abilities do in a realm. -/
def semantics (r : Realm σ) (root : RootId) (conduct : Ability → Conduct Unit) : Semantics σ :=
  fun ability stop => (conduct ability).run (r.actor root) stop

/-- What is noted of a walk. -/
def walkJournal (r : Realm σ) (root : RootId) (conduct : Ability → Conduct Unit) (fuel : Nat)
    (request : SpawnRequest) (d : Desk σ) : List (Incident σ) :=
  match r.depart (r.semantics root conduct) root request d with
  | .error _ _ => []
  | .ok departure d =>
    let done (ability : Ability) (stop : Stop) : Visit σ → List (Desk σ × Op) :=
      (conduct ability).ops (r.actor root) stop
    (departure.walk.ops done fuel (Walk.initial d departure.traveler departure.start)).map
        (fun x => .performs x.1 x.2) ++
      match departure.walk.run fuel departure.traveler departure.start d with
      | .error _ _ => []
      | .ok journey d =>
        if journey.halt.commits then Desk.attempt (Desk.conclude root) d else []

/-- The realm after a request. -/
def after (r : Realm σ) (root : RootId) : Request → Realm σ
  | .createRoot tenant => endOf (createRoot tenant) r
  | .session doings =>
    match session root r with
    | .ok s r =>
      { r with shared := (Desk.attend (r.actor root) ⟨s.draft, r.shared⟩ doings).shared }
    | .error _ r => r
  | .spawn conduct fuel request => endOf (spawn conduct fuel root request) r
  | .wait millis => { r with shared := r.shared.sleep millis }

/-- What is noted of a request. -/
def note (r : Realm σ) (root : RootId) : Request → List (Incident σ)
  | .createRoot tenant => founding (RootId.ofTenant tenant) ⟨Draft.empty, r.shared⟩
  | .session doings =>
    match session root r with
    | .ok s r => Desk.journal (r.actor root) ⟨s.draft, r.shared⟩ doings
    | .error _ _ => []
  | .spawn conduct fuel request => r.walkJournal root conduct fuel request ⟨Draft.empty, r.shared⟩
  | .wait _ => []

/-- The realm after some requests, one after another. -/
def play (r : Realm σ) (root : RootId) (requests : List Request) : Realm σ :=
  requests.foldl (fun r request => r.after root request) r

/-- What is noted of them. -/
def journal (r : Realm σ) (root : RootId) : List Request → List (Incident σ)
  | [] => []
  | request :: rest => r.note root request ++ (r.after root request).journal root rest

end Realm

end Wayfarer
