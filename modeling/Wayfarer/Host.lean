import Wayfarer.LogFilter
import Wayfarer.Realm
import Wayfarer.Settings.Store
import Wayfarer.Storage

/-!
# Host

A host runs a realm as its settings say. It admits a limited number of walks at
a time, until it is shut down.

* `Host.settings` reads and checks the settings, `Storage.ofSetting` opens the
  durable tier and `Host.start` starts the realm over it.
* `Host.submit` runs one walk, `Host.submitAll` several.
-/

namespace Wayfarer

/-- Why a host refuses something. -/
inductive HostError
  /-- The realm refused it. -/
  | realm (cause : Error)
  /-- The durable tier cannot be opened. -/
  | opening (path : String)
  /-- The settings cannot be loaded. -/
  | settings
  /-- The log filter makes no sense. -/
  | logFilter (text : String)
  /-- The host does not admit walks any more. -/
  | shutDown
  deriving DecidableEq

/-- The wording of a cause. -/
def HostError.message : HostError → String
  | .realm cause => cause.message
  | .opening path => "opening durable tier at " ++ path
  | .settings => "loading host settings"
  | .logFilter text => "invalid log filter `" ++ text ++ "`"
  | .shutDown => "kernel shut down"

/-- The durable tier that settings ask for. -/
def Storage.ofSetting (setting : DurableSetting) : EStateM HostError Folders Storage := fun f =>
  match setting with
  | .memory => .ok (.memory Vault.empty) f
  | .directory text =>
    match Path.below? f.base text with
    | none => .error (.opening text) f
    | some path =>
      match Folders.openArchive path f with
      | .ok archive f => .ok (.directory path archive) f
      | .error _ f => .error (.opening text) f

/-- A realm with the number of walks that may run at the same time. -/
structure Host (σ : Type) where
  realm : Realm σ
  permits : Nat
  admitting : Bool

namespace Host

/-- The settings in a store, with a log filter that makes sense. -/
def settings {κ : Type} [ConfigStore κ] (store : κ) : Except HostError HostSettings :=
  match Settings.loadHost store with
  | .error _ _ => .error .settings
  | .ok s _ => if LogFilter.isValid s.logFilter then .ok s else .error (.logFilter s.logFilter)

variable {σ : Type} [Durable σ]

/-- Starts a realm over a durable tier; at least one walk may always run. -/
def start (rulebook : Rulebook) (settings : HostSettings) (durable : σ) :
    EStateM.Result HostError σ (Host σ) :=
  match Realm.start rulebook settings.realm durable with
  | .ok realm durable => .ok ⟨realm, max settings.maxConcurrentWalks.toNat 1, true⟩ durable
  | .error e durable => .error (.realm e) durable

/-- A step of the realm. -/
def onRealm {α : Type} (act : EStateM Error (Realm σ) α) : EStateM HostError (Host σ) α := fun h =>
  match act h.realm with
  | .ok a realm => .ok a { h with realm := realm }
  | .error e realm => .error (.realm e) { h with realm := realm }

/-- Walks that may start without waiting. Requests are answered one at a time,
so between them every permit is free. -/
def idleSlots (h : Host σ) : Nat := h.permits

/-- The root of a tenant. A host that is shut down still gives it. -/
def createRoot (tenant : String) : EStateM HostError (Host σ) RootId :=
  onRealm (Realm.createRoot tenant)

/-- Runs one walk. -/
def submit (conduct : Ability → Conduct Unit) (fuel : Nat) (root : RootId)
    (request : SpawnRequest) : EStateM HostError (Host σ) Journey := do
  if (← get).admitting then
    onRealm (Realm.spawn conduct fuel root request)
  else
    throw .shutDown

/-- Runs several walks; each has its own result, in the order of the
requests. -/
def submitAll (conduct : Ability → Conduct Unit) (fuel : Nat) :
    List (RootId × SpawnRequest) → Host σ → List (Except HostError Journey) × Host σ
  | [], h => ([], h)
  | (root, request) :: rest, h =>
    match submit conduct fuel root request h with
    | .ok journey h =>
      let (more, h) := submitAll conduct fuel rest h
      (.ok journey :: more, h)
    | .error e h =>
      let (more, h) := submitAll conduct fuel rest h
      (.error e :: more, h)

/-- The host after it stopped admitting walks. -/
def shutdown (h : Host σ) : Host σ := { h with admitting := false }

end Host

end Wayfarer
