import Wayfarer.Reclaim
import Wayfarer.Settings
import Wayfarer.Walk

/-!
# Realm

A realm is a rulebook over shared tiers. Tenants get their roots from it, open
sessions in which they work on the graph, and send travelers on walks. Each
session and each walk is a request with a draft of its own; requests see each
other's changes through commits only.

* `Realm.start` opens a realm over a durable tier.
* `Realm.createRoot`, `Realm.session` and `Realm.spawn` are its requests.
-/

namespace Wayfarer

/-- A running realm. -/
structure Realm (σ : Type) where
  rulebook : Rulebook
  config : RealmConfig
  shared : Shared σ

/-- A request that a tenant works in step by step. -/
structure Session where
  root : RootId
  draft : Draft

/-- A walk to be made: the type of the traveler, fields that differ from its
defaults, where to start if not at the root, and limits where they differ from
the realm's. -/
structure SpawnRequest where
  traveler : String
  fields : Fields
  start : Option ObjectId
  limits : Limits

/-- Ends a request: what the tenant left without a root is removed, then
everything is committed. -/
def Desk.conclude {σ : Type} [Durable σ] (root : RootId) : Work σ Receipt := do
  let _ ← Desk.evictUnreachable root
  Desk.commit

/-- Limits with the realm's in place of missing ones. -/
def Limits.orElse (l : Limits) (c : RealmConfig) : Limits :=
  { l with
    budget := l.budget <|> c.walkBudget.map (·.toNat),
    maxSteps := l.maxSteps <|> c.maxWalkSteps.map (·.toNat) }

/-- A short description for diagnostics. -/
def RealmConfig.describe (c : RealmConfig) : String :=
  let optional (n : Option UInt64) : String :=
    match n with
    | some n => "Some(" ++ toString n.toNat ++ ")"
    | none => "None"
  "RuntimeConfig \x7b cache_ttl_ms: " ++ toString c.cacheTtl.toNat ++ ", cache_capacity: " ++
    toString c.cacheCapacity.toNat ++ ", walk_budget_ms: " ++ optional c.walkBudget ++
    ", max_walk_steps: " ++ optional c.maxWalkSteps ++ ", id_seed: " ++ Text.quote c.idSeed ++
    " \x7d"

namespace Realm

variable {σ : Type}

/-- A short description for diagnostics. -/
def describe (r : Realm σ) : String :=
  "Runtime \x7b config: " ++ r.config.describe ++ ", cached: " ++ toString r.shared.cache.size ++
    ", minted: " ++ toString r.shared.mint.count.toNat ++ ", .. \x7d"

/-- The actor that works for a tenant. -/
def actor (r : Realm σ) (root : RootId) : Actor := ⟨r.rulebook, root⟩

/-- Work of a request with a given draft: its result, and the draft and the
realm afterwards. -/
def work {α : Type} (r : Realm σ) (draft : Draft) (w : Work σ α) :
    Except Error α × Draft × Realm σ :=
  match w ⟨draft, r.shared⟩ with
  | .ok a desk => (.ok a, desk.draft, { r with shared := desk.shared })
  | .error e desk => (.error e, desk.draft, { r with shared := desk.shared })

/-- A whole request; its draft is dropped at the end. -/
def request {α : Type} (w : Work σ α) : EStateM Error (Realm σ) α := fun r =>
  match r.work Draft.empty w with
  | (.ok a, _, r) => .ok a r
  | (.error e, _, r) => .error e r

variable [Durable σ]

/-- Opens a realm over a durable tier, in a new epoch and with an empty
cache. -/
def start (rulebook : Rulebook) (config : RealmConfig) (durable : σ) :
    EStateM.Result Error σ (Realm σ) :=
  match Durable.nextEpoch durable with
  | .error e durable => .error e durable
  | .ok epoch durable =>
    let cache := Cache.new config.cacheTtl.toNat config.cacheCapacity.toNat
    let mint := Mint.new config.idSeed epoch
    .ok ⟨rulebook, config, ⟨durable, cache, mint, 0, Table.empty, Table.empty⟩⟩ durable

/-- The root of a tenant, created and committed if it is not there. -/
def createRoot (tenant : String) : EStateM Error (Realm σ) RootId := do
  let root := RootId.ofTenant tenant
  request do
    if ← Actor.insertRoot root then
      let _ ← Desk.commit
  pure root

/-- Everything committed that a tenant owns. -/
def ownedBy (r : Realm σ) (root : RootId) : List ObjectId :=
  Durable.ownedBy r.shared.durable root

/-- Refuses a tenant that has no root to be seen. -/
def requireRoot (actor : Actor) : Work σ Unit := do
  match ← actor.readableType actor.requester with
  | some _ => pure ()
  | none => throw (.unknownRoot actor.requester)

/-- Opens a session for a tenant. -/
def session (root : RootId) : EStateM Error (Realm σ) Session := fun r =>
  match r.work Draft.empty (requireRoot (r.actor root)) with
  | (.ok _, draft, r) => .ok ⟨root, draft⟩ r
  | (.error e, _, r) => .error e r

/-- The request of a walk. It commits if the walk came to an end by itself. -/
def journey (r : Realm σ) (semantics : Semantics σ) (fuel : Nat) (root : RootId)
    (request : SpawnRequest) : Work σ Journey := do
  let actor := r.actor root
  requireRoot actor
  match r.rulebook.types.resolveKind .walker request.traveler with
  | none => throw (.unknownTraveler request.traveler)
  | some type =>
    let fields ← actor.fillFields type request.fields
    let start := request.start.getD root
    let _ ← actor.typeOf start
    let limits := request.limits.orElse r.config
    let started := (← get).shared.now
    let walk : Walk σ := ⟨actor, semantics, limits.gate started, limits.maxSteps⟩
    let journey ← walk.run fuel (Traveler.new type fields) start
    if journey.halt.commits then
      let _ ← Desk.conclude root
    pure journey

/-- Sends a traveler on a walk for a tenant; `conduct` is what its abilities
do. -/
def spawn (conduct : Ability → Conduct Unit) (fuel : Nat) (root : RootId) (request : SpawnRequest) :
    EStateM Error (Realm σ) Journey := fun r =>
  let semantics : Semantics σ := fun ability stop => (conduct ability).run (r.actor root) stop
  Realm.request (r.journey semantics fuel root request) r

end Realm

end Wayfarer
