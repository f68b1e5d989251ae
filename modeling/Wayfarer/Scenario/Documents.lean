import Wayfarer.Folders
import Wayfarer.Settings.Store

/-!
# Document scenarios

Steps on stores of settings documents. A store in memory is always there; a
store in a directory may be there too, and then documents are loaded from and
saved to the directory.
-/

namespace Wayfarer.Scenario

/-- The stores of a scenario. -/
structure Stores where
  memory : ConfigMemory
  folders : Folders
  /-- Where the store in a directory is, if there is one. -/
  folder : Option String

/-- The name of the directory in a user's configuration that holds the
settings. -/
def userFolder : String := "roam"

/-- The directory of a store that is not at its usual place. -/
def namedFolder : String := "nested/config"

/-- A step on documents. -/
inductive DocumentStep
  | loadHost
  | saveHost (settings : HostSettings)
  | loadRealm (key : String)
  | loadRealmOrDefault (key : String)
  | load (key : String)
  | save (key : String) (content : Bytes)
  | failOn (mode : FailMode)
  | counts
  | keys
  | stored (key : String)
  | list
  | makeFolder (name : String)
  | base

/-- What a step on documents answers. -/
inductive DocumentReply
  | nothing
  | host (settings : HostSettings)
  | realm (config : Option RealmConfig)
  | content (bytes : Option Bytes)
  | counts (loads saves : Nat)
  | names (names : List String)
  | text (text : String)

namespace Stores

/-- A step on the directories, at a path that starts at the store in one of
them. -/
def onFolders {α : Type} (text : String) (act : Path → EStateM FileError Folders α) :
    EStateM ConfigError Stores α := fun s =>
  match s.folder.bind (Path.within? · text) with
  | none => .error .io s
  | some path =>
    match act path s.folders with
    | .ok a f => .ok a { s with folders := f }
    | .error _ f => .error .io { s with folders := f }

/-- Stores with these documents in memory, and one in an empty directory if its
path is given. -/
def new (blobs : Table String Bytes) (folder : Option String) : Stores :=
  let start : Stores := ⟨ConfigMemory.ofBlobs blobs, Folders.new "", folder⟩
  match onFolders "" Folders.makeAll start with
  | .ok _ s => s
  | .error _ s => s

/-- A step that either store can take, taken by the one in use. -/
def run {α : Type} (inMemory : EStateM ConfigError ConfigMemory α)
    (inFolder : EStateM ConfigError ConfigFolder α) : EStateM ConfigError Stores α := fun s =>
  match s.folder.bind Path.ofText? with
  | none =>
    match inMemory s.memory with
    | .ok a m => .ok a { s with memory := m }
    | .error e m => .error e { s with memory := m }
  | some path =>
    match inFolder ⟨s.folders.disk path⟩ with
    | .ok a f => .ok a { s with folders := s.folders.keep path f.disk }
    | .error e f => .error e { s with folders := s.folders.keep path f.disk }

/-- Carries one step out. -/
def perform : DocumentStep → EStateM ConfigError Stores DocumentReply
  | .loadHost => do pure (.host (← run Settings.loadHost Settings.loadHost))
  | .saveHost settings => do
    run (Settings.saveHost settings) (Settings.saveHost settings)
    pure .nothing
  | .loadRealm key => do
    let read {σ : Type} [ConfigStore σ] : EStateM ConfigError σ (Option RealmConfig) :=
      Settings.load RealmConfig.read? key
    pure (.realm (← run read read))
  | .loadRealmOrDefault key => do
    let read {σ : Type} [ConfigStore σ] : EStateM ConfigError σ RealmConfig :=
      Settings.loadD RealmConfig.read? RealmConfig.default key
    pure (.realm (some (← run read read)))
  | .load key => do pure (.content (some (← run (ConfigStore.load key) (ConfigStore.load key))))
  | .save key content => do
    run (ConfigStore.save key content) (ConfigStore.save key content)
    pure .nothing
  | .failOn mode => do
    modify fun s => { s with memory := { s.memory with fail := mode } }
    pure .nothing
  | .counts => do
    let m := (← get).memory
    pure (.counts m.loads m.saves)
  | .keys => do pure (.names (← get).memory.blobs.keys)
  | .stored key => do pure (.content ((← get).memory.blobs.get? key))
  | .list => do
    let names ← onFolders "" fun path => do pure ((← get).disk path).names
    pure (.names names)
  | .makeFolder name => do
    let _ ← onFolders name Folders.makeAll
    pure .nothing
  | .base => do pure (.text ((← get).folder.getD ""))

end Stores

end Wayfarer.Scenario
