import Wayfarer.Folders
import Wayfarer.Vault

/-!
# Storage

Permanent storage of either kind, in memory or in a directory.
-/

namespace Wayfarer

/-- A durable tier of either kind. A directory comes with the path that it was
opened at. -/
inductive Storage
  | memory (vault : Vault)
  | directory (path : Path) (archive : Archive)

namespace Storage

/-- A step that both kinds can take. -/
def step {α : Type} (inMemory : EStateM Error Vault α) (inDirectory : EStateM Error Archive α) :
    EStateM Error Storage α
  | .memory vault =>
    match inMemory vault with
    | .ok a vault => .ok a (.memory vault)
    | .error e vault => .error e (.memory vault)
  | .directory path archive =>
    match inDirectory archive with
    | .ok a archive => .ok a (.directory path archive)
    | .error e archive => .error e (.directory path archive)

instance : Durable Storage where
  fetch id := step (Durable.fetch id) (Durable.fetch id)
  apply batch := step (Durable.apply batch) (Durable.apply batch)
  ownedBy s root :=
    match s with
    | .memory vault => vault.ownedBy root
    | .directory _ archive => archive.ownedBy root
  nextEpoch := step Durable.nextEpoch Durable.nextEpoch
  size s :=
    match s with
    | .memory vault => Durable.size vault
    | .directory _ archive => Durable.size archive

end Storage

/-- The directories as a durable tier has them. -/
def Folders.withStorage (f : Folders) (storage : Storage) : Folders :=
  match storage with
  | .memory _ => f
  | .directory path archive => f.keep path archive.disk

/-- The durable tier after the directories changed. -/
def Storage.renew (storage : Storage) (f : Folders) : Storage :=
  match storage with
  | .memory vault => .memory vault
  | .directory path archive => .directory path (f.renew path archive)

end Wayfarer
