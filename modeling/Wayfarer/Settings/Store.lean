import Wayfarer.Archive.Disk
import Wayfarer.Settings
import Wayfarer.Text.Quoted

/-!
# Config stores

Stores of documents by key: one in memory, which counts its calls and can be
told to fail, and one in a directory, a file for each key. On top of either,
settings are loaded and saved; a missing or empty document stands for the
defaults.
-/

namespace Wayfarer

/-- Why a document cannot be loaded or saved. -/
inductive ConfigError
  | notFound
  | io
  | malformed (key : String)
  | other (text : String)
  deriving DecidableEq

/-- The wording of a cause. -/
def ConfigError.message : ConfigError → String
  | .notFound => "not found"
  | .io => "io error"
  | .malformed key => "config `" ++ key ++ "` is malformed"
  | .other text => "other: " ++ text

/-- A store of documents with states `σ`. -/
class ConfigStore (σ : Type) where
  /-- The document of a key. -/
  load : String → EStateM ConfigError σ Bytes
  /-- Sets the document of a key. -/
  save : String → Bytes → EStateM ConfigError σ Unit

/-- Which calls of a store in memory fail. -/
inductive FailMode
  | never | onLoad | onSave
  deriving DecidableEq, Inhabited

/-- A store in memory with counts of its calls. -/
structure ConfigMemory where
  blobs : Table String Bytes
  loads : Nat
  saves : Nat
  fail : FailMode
  deriving Inhabited

namespace ConfigMemory

/-- A store with these documents. -/
def ofBlobs (blobs : Table String Bytes) : ConfigMemory := ⟨blobs, 0, 0, .never⟩

/-- The document of a key. A failing call is counted too. -/
def load (key : String) : EStateM ConfigError ConfigMemory Bytes := fun m =>
  let m := { m with loads := m.loads + 1 }
  if m.fail = .onLoad then .error (.other "simulated load failure") m
  else
    match m.blobs.get? key with
    | some bytes => .ok bytes m
    | none => .error .notFound m

/-- Sets the document of a key. A failing call is counted too. -/
def save (key : String) (bytes : Bytes) : EStateM ConfigError ConfigMemory Unit := fun m =>
  let m := { m with saves := m.saves + 1 }
  if m.fail = .onSave then .error (.other "simulated save failure") m
  else .ok () { m with blobs := m.blobs.insert key bytes }

instance : ConfigStore ConfigMemory := ⟨load, save⟩

end ConfigMemory

/-- A store in a directory. -/
structure ConfigFolder where
  disk : Disk

namespace ConfigFolder

/-- Whether a key can be the name of a file in the directory and nowhere
else. -/
def validKey (key : String) : Bool :=
  match key.toList with
  | [] => false
  | '.' :: _ => false
  | cs => cs.all fun c => c != '/' && c != '\\'

/-- A key that can be a file name, or its refusal. -/
def checkKey (key : String) : Except ConfigError Unit :=
  if validKey key then .ok () else .error (.other ("invalid config key: " ++ Text.quote key))

/-- The document of a key. -/
def load (key : String) : EStateM ConfigError ConfigFolder Bytes := fun f =>
  match checkKey key with
  | .error e => .error e f
  | .ok _ =>
    match Disk.read (key ++ ".json") f.disk with
    | .ok bytes d => .ok bytes ⟨d⟩
    | .error .missing d => .error .notFound ⟨d⟩
    | .error .failed d => .error .io ⟨d⟩

/-- Sets the document of a key: written beside its file and renamed. -/
def save (key : String) (bytes : Bytes) : EStateM ConfigError ConfigFolder Unit := fun f =>
  match checkKey key with
  | .error e => .error e f
  | .ok _ =>
    match Disk.write (key ++ ".json.tmp") bytes f.disk with
    | .error _ d => .error .io ⟨d⟩
    | .ok _ d =>
      match Disk.rename (key ++ ".json.tmp") (key ++ ".json") d with
      | .error _ d => .error .io ⟨d⟩
      | .ok _ d => .ok () ⟨d⟩

instance : ConfigStore ConfigFolder := ⟨load, save⟩

end ConfigFolder

namespace Settings

variable {σ : Type} [ConfigStore σ]

/-- What a document says, read by `read?`; `none` when it is missing or
empty. -/
def load {α : Type} (read? : Bytes → Option α) (key : String) :
    EStateM ConfigError σ (Option α) := fun s =>
  match ConfigStore.load key s with
  | .error .notFound s => .ok none s
  | .error e s => .error e s
  | .ok [] s => .ok none s
  | .ok bytes s =>
    match read? bytes with
    | some a => .ok (some a) s
    | none => .error (.malformed key) s

/-- What a document says, or a default. -/
def loadD {α : Type} (read? : Bytes → Option α) (default : α) (key : String) :
    EStateM ConfigError σ α := do
  pure ((← load read? key).getD default)

/-- The key of a host's settings. -/
def hostKey : String := "host"

/-- The settings of a host. -/
def loadHost : EStateM ConfigError σ HostSettings :=
  loadD HostSettings.read? HostSettings.default hostKey

/-- Saves the settings of a host. -/
def saveHost (s : HostSettings) : EStateM ConfigError σ Unit :=
  ConfigStore.save hostKey (Bytes.ofString s.document.print)

end Settings

end Wayfarer
