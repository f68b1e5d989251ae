import Wayfarer.Scenario.Observed
import Wayfarer.Scenario.Script
import Wayfarer.Scenario.Step

/-!
# Worlds

A scenario plays in a world: a realm, with a host around it or without, the
storage below it, and everything that earlier steps opened or gave names to.

* `World.begin` starts the realm; whatever ran before is stopped.
-/

namespace Wayfarer.Scenario

/-- How the realm of a scenario is started. -/
inductive Launch
  /-- Over one vault that outlives restarts; the root of a tenant may be made at
  each start. -/
  | vault (config : RealmConfig) (tenant : Option String)
  /-- Over the archive in the store directory, opened anew at each start. -/
  | folder (config : RealmConfig) (tenant : Option String)
  /-- Over a vault of its own, with default settings. -/
  | plain
  /-- By a host with these settings. -/
  | settings (settings : HostSettings)
  /-- By a host that reads its settings from this document. -/
  | boot (document : Bytes)

/-- What a scenario is about: the rules, what abilities do, and how to start.
Abilities that are not listed in `bodies` are those of the travel schema. -/
structure Setup where
  rulebook : Rulebook
  bodies : Table String (Option String)
  scripts : Table String (List Action)
  launch : Launch

/-- A realm, run by a host or by itself. -/
inductive Running
  | realm (realm : Realm Observed)
  | host (host : Host Observed)

/-- The realm that runs. -/
def Running.current : Running → Realm Observed
  | .realm r => r
  | .host h => h.realm

/-- The same way of running with another realm. -/
def Running.withRealm (running : Running) (r : Realm Observed) : Running :=
  match running with
  | .realm _ => .realm r
  | .host h => .host { h with realm := r }

/-- A world between two steps. -/
structure World where
  setup : Setup
  names : Table String ObjectId
  vault : Vault
  folders : Folders
  running : Option Running
  /-- How often the storage was read and written by a start that failed. -/
  attempt : Option (Nat × Nat)
  sessions : Table String Session
  drafts : Table String Draft
  tokens : Nat

/-- Steps of a scenario. -/
abbrev Play := EStateM Trouble World

namespace World

/-- The name of the directory that file steps start at. -/
def storeName : String := "store"

/-- The path of that directory. -/
def storePath : Path := ⟨[storeName], .nothing, storeName.utf8ByteSize + 1⟩

/-- A world in which nothing has happened. `base` is the directory below which
files may be. -/
def new (setup : Setup) (base : String) : World :=
  ⟨setup, Table.empty, Vault.empty, Folders.new base, none, none, Table.empty, Table.empty, 0⟩

/-- Whether the storage of this scenario is counted. -/
def counted (w : World) : Bool :=
  match w.setup.launch with
  | .vault .. => true
  | .folder .. => true
  | _ => false

/-- How often the storage was read and written since the last start, if it was
reached and is counted. -/
def counts (w : World) : Option (Nat × Nat) :=
  match w.running with
  | none => w.attempt
  | some running =>
    let o := running.current.shared.durable
    if w.counted then some (o.fetches, o.applies) else none

/-! ## Starting -/

/-- The world after its realm was stopped: permanent storage is kept, everything
open is dropped. -/
def close (w : World) : World :=
  let cleared :=
    { w with running := none, attempt := none, sessions := Table.empty, drafts := Table.empty }
  match w.running with
  | none => cleared
  | some running =>
    let storage := running.current.shared.durable.storage
    let cleared := { cleared with folders := w.folders.withStorage storage }
    match w.setup.launch, storage with
    | .vault .., .memory vault => { cleared with vault := vault }
    | _, _ => cleared

/-- A step on the directories. -/
def onFolders {ε α : Type} (trouble : ε → Trouble) (act : EStateM ε Folders α) : Play α := fun w =>
  match act w.folders with
  | .ok a folders => .ok a { w with folders := folders }
  | .error e folders => .error (trouble e) { w with folders := folders }

/-- Keeps what a failed start did to its storage. -/
def keepStorage (o : Observed) : Play Unit := modify fun w =>
  let attempt := if w.counted then some (o.fetches, o.applies) else none
  let w := { w with folders := w.folders.withStorage o.storage, attempt := attempt }
  match w.setup.launch, o.storage with
  | .vault .., .memory vault => { w with vault := vault }
  | _, _ => w

/-- Starts a realm without a host. -/
def startRealm (config : RealmConfig) (storage : Storage) : Play Unit := do
  let rulebook := (← get).setup.rulebook
  match Realm.start rulebook config (Observed.new storage) with
  | .ok realm _ => modify fun w => { w with running := some (.realm realm) }
  | .error e durable =>
    keepStorage durable
    throw (.realm e)

/-- Starts a host. -/
def startHost (settings : HostSettings) : Play Unit := do
  let rulebook := (← get).setup.rulebook
  let storage ← onFolders .host (Storage.ofSetting settings.durable)
  match Host.start rulebook settings (Observed.new storage) with
  | .ok host _ => modify fun w => { w with running := some (.host host) }
  | .error e durable =>
    keepStorage durable
    throw (.host e)

/-- The way the realm runs at the moment. -/
def active : Play Running := do
  match (← get).running with
  | some running => pure running
  | none => throw .noRealm

/-- The realm. -/
def realm : Play (Realm Observed) := do pure (← active).current

/-- Puts the realm back after a step. -/
def setRealm (r : Realm Observed) : Play Unit :=
  modify fun w => { w with running := w.running.map (·.withRealm r) }

/-- A request to the realm. -/
def inRealm {α : Type} (act : EStateM Error (Realm Observed) α) : Play α := do
  match act (← realm) with
  | .ok a r =>
    setRealm r
    pure a
  | .error e r =>
    setRealm r
    throw (.realm e)

/-- A step of the host. -/
def inHost {α : Type} (act : EStateM HostError (Host Observed) α) : Play α := do
  match (← get).running with
  | some (.host h) =>
    match act h with
    | .ok a h =>
      modify fun w => { w with running := some (.host h) }
      pure a
    | .error e h =>
      modify fun w => { w with running := some (.host h) }
      throw (.host e)
  | _ => throw .noHost

/-- Makes the root of a tenant, if one is named. A realm that cannot make it is
stopped. -/
def foundTenant (tenant : Option String) : Play Unit := fun w =>
  match tenant with
  | none => .ok () w
  | some tenant =>
    match inRealm (Realm.createRoot tenant) w with
    | .ok _ w => .ok () w
    | .error e w => .error e { w.close with attempt := w.counts }

/-- Starts the realm as the scenario says, after stopping the one that runs. -/
def begin : Play Unit := do
  modify close
  let w ← get
  match w.setup.launch with
  | .vault config tenant =>
    startRealm config (.memory w.vault)
    foundTenant tenant
  | .folder config tenant =>
    let archive ← onFolders .refused (Folders.openArchive storePath)
    startRealm config (.directory storePath archive)
    foundTenant tenant
  | .plain => startRealm RealmConfig.default (.memory Vault.empty)
  | .settings settings => startHost settings
  | .boot document =>
    let store := ConfigMemory.ofBlobs (Table.empty.insert Settings.hostKey document)
    match Host.settings store with
    | .ok settings => startHost settings
    | .error e => throw (.host e)

end World

end Wayfarer.Scenario
