import Wayfarer.Cache
import Wayfarer.Durable

/-!
# Desk

A request works at a desk: a draft of its own over tiers that all requests
share. Reads look in the draft, then in the cache, then in the durable tier, and
leave what they find in the tiers above. Changes stay in the draft until a
commit sends them to the durable tier as one batch.

* `Desk.load` reads an anchor, `Desk.update?` changes one, `Desk.stage` and
  `Desk.delete` put one in or take it out.
* `Desk.commit` publishes the draft, `Desk.rollback` forgets it.
-/

namespace Wayfarer

/-- How often each tier served a read. -/
structure Stats where
  volatileHits : Nat
  cacheHits : Nat
  durableReads : Nat
  deriving DecidableEq, Inhabited

/-- The state of one request: anchors it has loaded or staged, and removed
objects with the version they had. -/
structure Draft where
  volatile : Table ObjectId Anchor
  tombstones : Table ObjectId UInt64
  stats : Stats
  deriving Inhabited

/-- A switch by which somebody outside can cancel walks. -/
abbrev Token := Nat

/-- What all requests share: permanent storage, the cache above it, the source
of identities, the clock, the tokens that were set, and the notes of abilities.
A note gives a name to an object; it is no part of the graph and stays whether
the request commits or not. -/
structure Shared (σ : Type) where
  durable : σ
  cache : Cache
  mint : Mint
  now : Instant
  cancelled : OrdSet Token
  notes : Table String ObjectId

/-- A draft over shared tiers. -/
structure Desk (σ : Type) where
  draft : Draft
  shared : Shared σ

/-- Work at a desk. A failure keeps whatever was loaded or changed before it. -/
abbrev Work (σ : Type) := EStateM Error (Desk σ)

namespace Draft

/-- The draft of a request that has done nothing yet. -/
def empty : Draft := ⟨Table.empty, Table.empty, ⟨0, 0, 0⟩⟩

/-- Whether anything awaits a commit. -/
def hasPending (d : Draft) : Bool := !d.tombstones.isEmpty || d.volatile.values.any (·.dirty)

/-- The changed anchors as a commit writes them: one version later and clean. -/
def writes (d : Draft) : List Anchor :=
  (d.volatile.values.filter (·.dirty)).map fun a =>
    { a with version := a.version + 1, dirty := false }

/-- Everything that awaits a commit. -/
def batch (d : Draft) : Batch := ⟨d.writes, d.tombstones.toList⟩

/-- The draft with an anchor marked as changed. -/
def stage (d : Draft) (a : Anchor) : Draft :=
  { d with
    volatile := d.volatile.insert a.id { a with dirty := true },
    tombstones := d.tombstones.erase a.id }

/-- The draft after a batch was applied. -/
def settle (d : Draft) (batch : Batch) : Draft :=
  let refresh (t : Table ObjectId Anchor) (w : Anchor) :=
    t.modify w.id fun a => { a with version := w.version, dirty := false }
  { d with volatile := batch.writes.foldl refresh d.volatile, tombstones := Table.empty }

/-- The draft without changes and without loaded anchors. -/
def rollback (d : Draft) : Draft :=
  { d with volatile := Table.empty, tombstones := Table.empty }

/-- The draft without the anchors that are merely loaded. -/
def evictVolatile (d : Draft) : Draft := { d with volatile := d.volatile.filter fun _ a => a.dirty }

/-- A short description for diagnostics. -/
def describe (d : Draft) : String :=
  "PersistenceManager \x7b volatile: " ++ toString d.volatile.size ++ ", tombstones: " ++
    toString d.tombstones.size ++ ", stats: TierStats \x7b volatile_hits: " ++
    toString d.stats.volatileHits ++ ", cache_hits: " ++ toString d.stats.cacheHits ++
    ", durable_reads: " ++ toString d.stats.durableReads ++ " \x7d, .. \x7d"

end Draft

namespace Shared

variable {σ : Type}

/-- A step of the durable tier. -/
def onDurable {α : Type} (act : EStateM Error σ α) : EStateM Error (Shared σ) α := fun s =>
  match act s.durable with
  | .ok a durable => .ok a { s with durable := durable }
  | .error e durable => .error e { s with durable := durable }

/-- The tiers after the cache was told of a committed anchor. -/
def remember (s : Shared σ) (a : Anchor) : Shared σ :=
  { s with cache := s.cache.put s.now a, now := s.now + 1 }

/-- The tiers after the cache was told of a removal. -/
def forget (s : Shared σ) (id : ObjectId) (version : UInt64) : Shared σ :=
  { s with cache := s.cache.invalidate s.now id version, now := s.now + 1 }

/-- The tiers after a batch was applied. -/
def settle (s : Shared σ) (batch : Batch) : Shared σ :=
  batch.deletes.foldl (fun s d => s.forget d.1 d.2) (batch.writes.foldl remember s)

/-- The tiers some milliseconds later. -/
def sleep (s : Shared σ) (millis : Nat) : Shared σ :=
  { s with now := s.now + millis * ticksPerMilli }

end Shared

namespace Desk

variable {σ : Type}

/-- The desk with an anchor among the loaded ones. -/
def keep (d : Desk σ) (id : ObjectId) (a : Anchor) : Desk σ :=
  { d with draft := { d.draft with volatile := d.draft.volatile.insert id a } }

/-- The desk with the counts of reads changed. -/
def count (d : Desk σ) (f : Stats → Stats) : Desk σ :=
  { d with draft := { d.draft with stats := f d.draft.stats } }

/-- A step of the durable tier. -/
def onDurable {α : Type} (act : EStateM Error σ α) : Work σ α := fun d =>
  match Shared.onDurable act d.shared with
  | .ok a shared => .ok a { d with shared := shared }
  | .error e shared => .error e { d with shared := shared }

/-- The number of objects that can be found in some tier is at most this. -/
def bound [Durable σ] (d : Desk σ) : Nat :=
  d.draft.volatile.size + d.shared.cache.size + Durable.size d.shared.durable

/-- Applies a change to the draft alone. -/
def onDraft (f : Draft → Draft) : Work σ Unit := modify fun d => { d with draft := f d.draft }

variable [Durable σ]

/-- Reads an object from the durable tier into the tiers above. -/
def fetch (id : ObjectId) : Work σ Bool := do
  modify fun d => d.count fun s => { s with durableReads := s.durableReads + 1 }
  match ← onDurable (Durable.fetch id) with
  | none => pure false
  | some a =>
    modify fun d => { d.keep id a.clean with shared := d.shared.remember a.clean }
    pure true

/-- Brings an object into the draft. It is not there if no tier has it or the
request removed it. -/
def ensure (id : ObjectId) : Work σ Bool := do
  let d ← get
  if d.draft.tombstones.contains id then
    pure false
  else if d.draft.volatile.contains id then
    set (d.count fun s => { s with volatileHits := s.volatileHits + 1 })
    pure true
  else
    match d.shared.cache.get? d.shared.now id with
    | some a =>
      set ((d.keep id a).count fun s => { s with cacheHits := s.cacheHits + 1 })
      pure true
    | none => fetch id

/-- The anchor of an object as this request sees it. -/
def load (id : ObjectId) : Work σ (Option Anchor) := do
  if ← ensure id then
    pure ((← get).draft.volatile.get? id)
  else
    pure none

/-- The node record of an object, if it is there and is a node. -/
def loadNode (id : NodeId) : Work σ (Option NodeRecord) := do
  pure ((← load id).bind Anchor.node?)

/-- The edge record of an object, if it is there and is an edge. -/
def loadEdge (id : EdgeId) : Work σ (Option EdgeRecord) := do
  pure ((← load id).bind Anchor.edge?)

/-- Changes an object and marks it as changed. The answer is the object before
the change. -/
def update? (id : ObjectId) (change : Anchor → Anchor) : Work σ (Option Anchor) := do
  match ← load id with
  | none => pure none
  | some a =>
    modify fun d => d.keep id { change a with dirty := true }
    pure (some a)

/-- Puts an anchor into the draft as a change. -/
def stage (a : Anchor) : Work σ Unit := onDraft (·.stage a)

/-- Removes an object. One that was ever committed leaves its version behind, so
that the commit removes it from the durable tier too. -/
def delete (id : ObjectId) : Work σ Unit := do
  match ← load id with
  | none => pure ()
  | some a =>
    onDraft fun d =>
      { d with
        volatile := d.volatile.erase id,
        tombstones := if 0 < a.version then d.tombstones.insert id a.version else d.tombstones }

/-- Sends all changes to the durable tier as one batch and tells the cache.
Nothing changes when the durable tier refuses. -/
def commit : Work σ Receipt := do
  let batch := (← get).draft.batch
  if batch.isEmpty then
    pure Receipt.empty
  else
    onDurable (Durable.apply batch)
    modify fun d => ⟨d.draft.settle batch, d.shared.settle batch⟩
    pure ⟨batch.writes.map (·.id), batch.deletes.map (·.1)⟩

end Desk

end Wayfarer
