import Wayfarer.Anchor

/-!
# Cache

The tier that all requests share. It holds committed anchors for a limited time
and in limited number; a removed object leaves a marker, so that a slow reader
cannot bring it back. Time is a count of ticks that the caller supplies.

* `Cache.get?` serves an anchor while it is fresh.
* `Cache.put` and `Cache.invalidate` remember a commit; an older version never
  replaces a newer one that is still fresh.
-/

namespace Wayfarer

/-- A moment, in ticks since the start. -/
abbrev Instant := Nat

/-- The number of ticks in a millisecond. Ticks are so small that a request
never gets through a millisecond by its own operations. -/
def ticksPerMilli : Nat := 1000000

/-- What is remembered about an object: an anchor, or that it was removed at
some version. -/
structure CacheEntry where
  storedAt : Instant
  version : UInt64
  anchor : Option Anchor
  deriving Inhabited

/-- Entries that live `ttl` ticks, at most `capacity` of them. -/
structure Cache where
  ttl : Nat
  capacity : Nat
  entries : Table ObjectId CacheEntry
  deriving Inhabited

namespace Cache

/-- A cache without entries. -/
def new (ttlMillis capacity : Nat) : Cache := ⟨ttlMillis * ticksPerMilli, capacity, Table.empty⟩

/-- Whether the cache may hold anything at all. -/
def enabled (c : Cache) : Bool := 0 < c.ttl && 0 < c.capacity

/-- Whether an entry has not outlived its time. -/
def live (c : Cache) (now : Instant) (e : CacheEntry) : Bool := now - e.storedAt < c.ttl

/-- The anchor remembered for an object. -/
def get? (c : Cache) (now : Instant) (id : ObjectId) : Option Anchor :=
  match c.entries.get? id with
  | none => none
  | some e => if c.live now e then e.anchor else none

/-- Whether a fresh entry says at least as much as a new one of version
`version`. -/
def supersedes (c : Cache) (now : Instant) (e : CacheEntry) (version : UInt64)
    (anchor : Option Anchor) : Bool :=
  c.live now e && (version < e.version || (e.version == version && anchor.isSome))

/-- The earlier stored of two entries, the first of equals. -/
def older (best : Option (ObjectId × CacheEntry)) (next : ObjectId × CacheEntry) :
    Option (ObjectId × CacheEntry) :=
  match best with
  | none => some next
  | some b => if next.2.storedAt < b.2.storedAt then some next else some b

/-- The entry stored earliest. -/
def oldest? (entries : Table ObjectId CacheEntry) : Option ObjectId :=
  (entries.toList.foldl older none).map (·.1)

/-- The entries with room for one more: expired ones go first, then the
oldest. -/
def makeRoom (c : Cache) (now : Instant) : Table ObjectId CacheEntry :=
  let fresh := c.entries.filter fun _ e => c.live now e
  if c.capacity ≤ fresh.size then
    match oldest? fresh with
    | some id => fresh.erase id
    | none => fresh
  else fresh

/-- Remembers `anchor`, or its removal, at a version. -/
def remember (c : Cache) (now : Instant) (id : ObjectId) (version : UInt64)
    (anchor : Option Anchor) : Cache :=
  if !c.enabled then c
  else
    match c.entries.get? id with
    | some e =>
      if c.supersedes now e version anchor then c
      else { c with entries := c.entries.insert id ⟨now, version, anchor⟩ }
    | none =>
      let entries := if c.capacity ≤ c.entries.size then c.makeRoom now else c.entries
      { c with entries := entries.insert id ⟨now, version, anchor⟩ }

/-- Remembers a committed anchor. -/
def put (c : Cache) (now : Instant) (anchor : Anchor) : Cache :=
  c.remember now anchor.id anchor.version (some anchor.clean)

/-- Remembers that an object was removed at a version. -/
def invalidate (c : Cache) (now : Instant) (id : ObjectId) (version : UInt64) : Cache :=
  c.remember now id version none

/-- The cache without entries. -/
def clear (c : Cache) : Cache := { c with entries := Table.empty }

/-- The number of entries, expired ones and markers included. -/
def size (c : Cache) : Nat := c.entries.size

end Cache

end Wayfarer
