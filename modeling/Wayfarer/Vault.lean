import Wayfarer.Durable

/-!
# Vault

The durable tier that keeps everything in memory: a table of anchors and the
last epoch.
-/

namespace Wayfarer

/-- Anchors by identity, and the last epoch handed out. -/
structure Vault where
  anchors : Table ObjectId Anchor
  epoch : UInt64
  deriving Inhabited

namespace Vault

/-- A vault that holds nothing. -/
def empty : Vault := ⟨Table.empty, 0⟩

/-- The stored version of an object. -/
def version? (v : Vault) (id : ObjectId) : Option UInt64 := (v.anchors.get? id).map (·.version)

/-- The anchors after a batch: writes stored clean, then deletes removed. -/
def overlay (anchors : Table ObjectId Anchor) (batch : Batch) : Table ObjectId Anchor :=
  let written := batch.writes.foldl (fun t a => t.insert a.id a.clean) anchors
  batch.deletes.foldl (fun t d => t.erase d.1) written

/-- Reads one anchor. -/
def fetch (id : ObjectId) : EStateM Error Vault (Option Anchor) := fun v =>
  .ok (v.anchors.get? id) v

/-- Applies a batch if every expectation is met. -/
def apply (batch : Batch) : EStateM Error Vault Unit := fun v =>
  match batch.check v.version? with
  | .ok _ => .ok () { v with anchors := overlay v.anchors batch }
  | .error e => .error e v

/-- Everything a tenant owns. -/
def ownedBy (v : Vault) (root : RootId) : List ObjectId :=
  (v.anchors.values.filter fun a => a.owner = root).map (·.id)

/-- The next epoch. -/
def nextEpoch : EStateM Error Vault UInt64 := fun v =>
  .ok (v.epoch + 1) { v with epoch := v.epoch + 1 }

instance : Durable Vault where
  fetch := fetch
  apply := apply
  ownedBy := ownedBy
  nextEpoch := nextEpoch
  size v := v.anchors.size

end Vault

end Wayfarer
