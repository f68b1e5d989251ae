import Wayfarer.Anchor
import Wayfarer.Error

/-!
# Durable tier

The contract of permanent storage. A batch states the version it expects of
everything it changes; it is applied as a whole or not at all.

* `Batch.check` compares the expected versions with the stored ones.
* `Durable` is what a kind of permanent storage provides; the tiers above work
  over any of them.
-/

namespace Wayfarer

/-- One atomic change: anchors to store at their new version, and objects to
remove together with the version they are expected to have. -/
structure Batch where
  writes : List Anchor
  deletes : List (ObjectId × UInt64)
  deriving Inhabited

namespace Batch

/-- Whether the batch changes nothing. -/
def isEmpty (b : Batch) : Bool := b.writes.isEmpty && b.deletes.isEmpty

/-- The version that a write of version `v` expects to replace. -/
def expected (v : UInt64) : UInt64 := if v = 0 then 0 else v - 1

/-- Every object of the batch with the version it expects to find. -/
def expectations (b : Batch) : List (ObjectId × UInt64) :=
  b.writes.map (fun a => (a.id, expected a.version)) ++ b.deletes

/-- The first expectation that the stored versions do not meet; an absent object
counts as version zero. -/
def conflict? (current : ObjectId → Option UInt64) : List (ObjectId × UInt64) → Option Error
  | [] => none
  | (id, want) :: rest =>
    let found := (current id).getD 0
    if found = want then conflict? current rest else some (.conflict id want found)

/-- Whether all expectations are met, or the first conflict. -/
def check (b : Batch) (current : ObjectId → Option UInt64) : Except Error Unit :=
  match conflict? current b.expectations with
  | none => .ok ()
  | some e => .error e

end Batch

/-- What a commit wrote and removed. -/
structure Receipt where
  written : List ObjectId
  deleted : List ObjectId
  deriving Inhabited, DecidableEq

/-- The receipt of a commit that had nothing to do. -/
def Receipt.empty : Receipt := ⟨[], []⟩

/-- Permanent storage with states `σ`. Every operation may change the state and
may fail. -/
class Durable (σ : Type) where
  /-- Reads one anchor. -/
  fetch : ObjectId → EStateM Error σ (Option Anchor)
  /-- Applies a batch as a whole or not at all. -/
  apply : Batch → EStateM Error σ Unit
  /-- Everything a tenant owns, in the order of identities. -/
  ownedBy : σ → RootId → List ObjectId
  /-- Hands out an epoch number that was never handed out before. -/
  nextEpoch : EStateM Error σ UInt64
  /-- A bound on the number of objects that can be fetched. -/
  size : σ → Nat

end Wayfarer
