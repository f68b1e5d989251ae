import Wayfarer.Storage

/-!
# Observed storage

Permanent storage that counts how often it is reached, and that can be armed:
right before the next batch a rival then commits a new version of one object.
-/

namespace Wayfarer.Scenario

/-- Storage with counts of reads and batches, and the object that a rival waits
for. -/
structure Observed where
  storage : Storage
  fetches : Nat
  applies : Nat
  rival : Option ObjectId

namespace Observed

/-- Storage that was not reached yet. -/
def new (storage : Storage) : Observed := ⟨storage, 0, 0, none⟩

/-- A step of the storage itself. -/
def onStorage {α : Type} (act : EStateM Error Storage α) : EStateM Error Observed α := fun o =>
  match act o.storage with
  | .ok a storage => .ok a { o with storage := storage }
  | .error e storage => .error e { o with storage := storage }

/-- The rival's move: the object is stored again, one version later. -/
def intrude (id : ObjectId) : EStateM Error Storage Unit := do
  match ← Durable.fetch id with
  | none => pure ()
  | some a => Durable.apply ⟨[{ a with version := a.version + 1 }], []⟩

/-- Lets a waiting rival make its move, once. -/
def disarm : EStateM Error Observed Unit := fun o =>
  match o.rival with
  | none => .ok () o
  | some id => onStorage (intrude id) { o with rival := none }

/-- Reads one anchor. -/
def fetch (id : ObjectId) : EStateM Error Observed (Option Anchor) := do
  modify fun o => { o with fetches := o.fetches + 1 }
  onStorage (Durable.fetch id)

/-- Applies a batch; a refused one is counted too. -/
def apply (batch : Batch) : EStateM Error Observed Unit := do
  modify fun o => { o with applies := o.applies + 1 }
  disarm
  onStorage (Durable.apply batch)

instance : Durable Observed where
  fetch := fetch
  apply := apply
  ownedBy o root := Durable.ownedBy o.storage root
  nextEpoch := onStorage Durable.nextEpoch
  size o := Durable.size o.storage

end Observed

end Wayfarer.Scenario
