import Wayfarer.Json.Printer
import Wayfarer.Json.Scan

/-!
# Settings

The settings of a host and of the realm it runs, with their documents. A
document may be partial: what it does not mention keeps its default. It may also
be an array that gives the fields in order.

* `RealmConfig.document` and `HostSettings.document` are the printed forms.
* `RealmConfig.read?` and `HostSettings.read?` read a document. Unknown fields
  are passed over; a field given twice is refused.
-/

namespace Wayfarer

/-- Settings of a realm. Times are in milliseconds. -/
structure RealmConfig where
  /-- How long the cache keeps an entry; nothing is kept at zero. -/
  cacheTtl : UInt64
  /-- How many entries the cache keeps. -/
  cacheCapacity : UInt64
  /-- The time a walk may take unless it says otherwise. -/
  walkBudget : Option UInt64
  /-- The number of places a walk may enter unless it says otherwise. -/
  maxWalkSteps : Option UInt64
  /-- The seed of minted identities. -/
  idSeed : String
  deriving DecidableEq, Inhabited

/-- The settings when nothing is said. -/
def RealmConfig.default : RealmConfig := ⟨30000, 10000, none, none, "roam"⟩

/-- Where a host keeps its durable tier. -/
inductive DurableSetting
  | memory
  | directory (path : String)
  deriving DecidableEq, Inhabited

/-- Settings of a host. -/
structure HostSettings where
  realm : RealmConfig
  durable : DurableSetting
  /-- How many walks may run at the same time; at least one always may. -/
  maxConcurrentWalks : UInt64
  /-- Which log records are kept. -/
  logFilter : String
  deriving DecidableEq, Inhabited

/-- The settings when nothing is said. -/
def HostSettings.default : HostSettings := ⟨RealmConfig.default, .memory, 8, "info"⟩

/-! ## Printed forms -/

/-- A number that may be absent. -/
def Json.Doc.optional (n : Option UInt64) : Json.Doc :=
  match n with
  | some n => .nat n.toNat
  | none => .null

/-- The document of a realm's settings. -/
def RealmConfig.document (c : RealmConfig) : Json.Doc :=
  .record [("cache_ttl_ms", .nat c.cacheTtl.toNat), ("cache_capacity", .nat c.cacheCapacity.toNat),
    ("walk_budget_ms", .optional c.walkBudget), ("max_walk_steps", .optional c.maxWalkSteps),
    ("id_seed", .text c.idSeed)]

/-- The document of a durable setting. -/
def DurableSetting.document : DurableSetting → Json.Doc
  | .memory => .record [("kind", .text "memory")]
  | .directory path => .record [("kind", .text "directory"), ("path", .text path)]

/-- The document of a host's settings. -/
def HostSettings.document (s : HostSettings) : Json.Doc :=
  .record [("runtime", s.realm.document), ("durable", s.durable.document),
    ("max_concurrent_walks", .nat s.maxConcurrentWalks.toNat), ("log_filter", .text s.logFilter)]

/-! ## Reading -/

namespace Settings

open Json Reader

/-- How many arrays and objects may stand inside each other, where values are
read and not only passed over. -/
def maxDepth : Nat := 127

/-- An unsigned 64-bit number, written plainly. -/
def unsigned : Reader UInt64 := do
  blanks
  let l ← number
  let n := ofDigits l.whole
  if l.plain && !l.negative && n < UInt64.size then pure n.toUInt64 else failure

/-- A number or null. -/
def optional : Reader (Option UInt64) := do
  match ← token? with
  | some 0x6E => do
    word "null"
    pure none
  | _ => do pure (some (← unsigned))

/-- A field that may be given once. -/
def once {α β : Type} (slot : Option β) (item : Reader α) : Reader α :=
  match slot with
  | some _ => failure
  | none => item

/-- A record given as an object, or as an array of its fields in order. The step
reads the value of a field by name. -/
def fields {σ : Type} (names : List String) (s : σ) (step : String → σ → Reader σ) : Reader σ := do
  match ← token? with
  | some 0x7B => do
    let _ ← byte
    entries s fun s => do
      let name ← key
      if name ∈ names then step name s
      else do
        skip
        pure s
  | some 0x5B => do
    let _ ← byte
    elements s fun i s =>
      match names[i]? with
      | some name => step name s
      | none => failure
  | _ => failure

/-- The fields of a realm's settings seen so far. -/
structure RealmSlots where
  cacheTtl : Option UInt64 := none
  cacheCapacity : Option UInt64 := none
  walkBudget : Option (Option UInt64) := none
  maxWalkSteps : Option (Option UInt64) := none
  idSeed : Option String := none

/-- The defaults with the given fields in their place. -/
def RealmSlots.fill (s : RealmSlots) : RealmConfig :=
  let d := RealmConfig.default
  ⟨s.cacheTtl.getD d.cacheTtl, s.cacheCapacity.getD d.cacheCapacity,
    s.walkBudget.getD d.walkBudget, s.maxWalkSteps.getD d.maxWalkSteps, s.idSeed.getD d.idSeed⟩

/-- The fields of a realm's settings in order. -/
def realmNames : List String :=
  ["cache_ttl_ms", "cache_capacity", "walk_budget_ms", "max_walk_steps", "id_seed"]

/-- One field of a realm's settings. -/
def realmField (name : String) (s : RealmSlots) : Reader RealmSlots :=
  match name with
  | "cache_ttl_ms" => do pure { s with cacheTtl := some (← once s.cacheTtl unsigned) }
  | "cache_capacity" => do pure { s with cacheCapacity := some (← once s.cacheCapacity unsigned) }
  | "walk_budget_ms" => do pure { s with walkBudget := some (← once s.walkBudget optional) }
  | "max_walk_steps" => do pure { s with maxWalkSteps := some (← once s.maxWalkSteps optional) }
  | "id_seed" => do pure { s with idSeed := some (← once s.idSeed string) }
  | _ => failure

/-- The settings of a realm. -/
def realm : Reader RealmConfig := do
  pure (← fields realmNames ({} : RealmSlots) realmField).fill

/-- A value as far as a durable setting looks at it. -/
inductive Content
  | text (s : String)
  | list (items : List Content)
  | record (entries : List (String × Content))
  | other

/-- A value of any shape, inner values by `inner` while there is depth for
them. -/
def contentWith (inner : Option (Reader Content)) : Reader Content := do
  match ← token? with
  | some 0x6E => do
    word "null"
    pure .other
  | some 0x74 => do
    word "true"
    pure .other
  | some 0x66 => do
    word "false"
    pure .other
  | some 0x22 => do pure (.text (← string))
  | some 0x5B => do
    let _ ← byte
    let part := inner.getD failure
    if inner.isNone then failure
    else pure (.list (← elements [] fun _ acc => do pure (acc ++ [← part])))
  | some 0x7B => do
    let _ ← byte
    let part := inner.getD failure
    if inner.isNone then failure
    else
      pure (.record (← entries [] fun acc => do
        let name ← key
        pure (acc ++ [(name, ← part)])))
  | _ => do
    let l ← number
    if l.overflows then failure else pure .other

/-- A value inside at most `depth` arrays and objects. -/
def content : Nat → Reader Content
  | 0 => contentWith none
  | depth + 1 => contentWith (some (content depth))

/-- The single value of a name, if it is given exactly once. -/
def single? (name : String) (entries : List (String × Content)) : Option Content :=
  match entries.filter fun e => e.1 == name with
  | [(_, c)] => some c
  | _ => none

/-- The durable setting that a value describes: a record with a kind, or a list
that starts with the kind. -/
def durableOf? : Content → Option DurableSetting
  | .record entries =>
    match single? "kind" entries with
    | some (.text "memory") => some .memory
    | some (.text "directory") =>
      match single? "path" entries with
      | some (.text path) => some (.directory path)
      | _ => none
    | _ => none
  | .list [.text "memory"] => some .memory
  | .list [.text "directory", .text path] => some (.directory path)
  | _ => none

/-- A durable setting, inside the settings of a host. -/
def durable : Reader DurableSetting := do
  match durableOf? (← content (maxDepth - 1)) with
  | some d => pure d
  | none => failure

/-- The fields of a host's settings seen so far. -/
structure HostSlots where
  realm : Option RealmConfig := none
  durable : Option DurableSetting := none
  maxConcurrentWalks : Option UInt64 := none
  logFilter : Option String := none

/-- The defaults with the given fields in their place. -/
def HostSlots.fill (s : HostSlots) : HostSettings :=
  let d := HostSettings.default
  ⟨s.realm.getD d.realm, s.durable.getD d.durable,
    s.maxConcurrentWalks.getD d.maxConcurrentWalks, s.logFilter.getD d.logFilter⟩

/-- The fields of a host's settings in order. -/
def hostNames : List String := ["runtime", "durable", "max_concurrent_walks", "log_filter"]

/-- One field of a host's settings. -/
def hostField (name : String) (s : HostSlots) : Reader HostSlots :=
  match name with
  | "runtime" => do pure { s with realm := some (← once s.realm realm) }
  | "durable" => do pure { s with durable := some (← once s.durable durable) }
  | "max_concurrent_walks" => do
    pure { s with maxConcurrentWalks := some (← once s.maxConcurrentWalks unsigned) }
  | "log_filter" => do pure { s with logFilter := some (← once s.logFilter string) }
  | _ => failure

/-- The settings of a host. -/
def host : Reader HostSettings := do
  pure (← fields hostNames ({} : HostSlots) hostField).fill

end Settings

/-- The settings of a realm in a document. -/
def RealmConfig.read? (bytes : Bytes) : Option RealmConfig := Json.document Settings.realm bytes

/-- The settings of a host in a document. -/
def HostSettings.read? (bytes : Bytes) : Option HostSettings := Json.document Settings.host bytes

end Wayfarer
