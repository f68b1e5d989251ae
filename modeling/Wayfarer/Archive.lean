import Wayfarer.Archive.Disk
import Wayfarer.Archive.Format
import Wayfarer.Durable
import Wayfarer.Text.Decimal

/-!
# Archive

The durable tier in a directory, one file for each anchor. Versions and owners
are kept in an index that is rebuilt from the files on opening; the last epoch
has a file of its own.

A batch first writes every new anchor beside its file (`tmp`), then swaps the
files in, moving what it replaces or deletes aside (`bak`). If a swap fails, the
swaps so far are undone in reverse. On opening, leftovers of an interrupted
batch are put right: unfinished new files go, and a file that was moved aside
comes back if nothing has taken its place.

* `Archive.opened` recovers, reads all files and builds the index.
* `Archive.apply` carries out a batch as a whole or not at all.
-/

namespace Wayfarer

/-- What the index knows about an anchor. -/
structure IndexEntry where
  version : UInt64
  owner : RootId
  deriving DecidableEq, Inhabited

/-- An opened archive. -/
structure Archive where
  disk : Disk
  index : Table ObjectId IndexEntry
  epoch : UInt64

instance : Inhabited Archive := ⟨⟨Disk.empty, Table.empty, 0⟩⟩

namespace Archive

/-- The name of the file of the last epoch. -/
def epochFile : String := "EPOCH"

/-- The name of an object's file, with one of the extensions `cbor`, `tmp` and
`bak`. -/
def fileName (id : ObjectId) (ext : String) : String :=
  (if id.isNode then "n-" else "e-") ++ id.digest.hex ++ "." ++ ext

/-- The bytes in the name of an object's file. -/
def fileNameBytes : Nat := 71

/-! ## Opening -/

/-- Puts one leftover right. -/
def recoverEntry (name : String) : EStateM FileError Disk Unit := fun d =>
  match Disk.extension? name with
  | some "tmp" => .ok () (Disk.removeQuietly name d)
  | some "bak" =>
    let target := Disk.withExtension name "cbor"
    if d.finds target then .ok () (Disk.removeQuietly name d)
    else Disk.rename name target d
  | _ => .ok () d

/-- Puts all leftovers right. -/
def recover : EStateM FileError Disk Unit := fun d =>
  (d.names.forM recoverEntry : EStateM FileError Disk Unit) d

/-- The number in the epoch file; without one it is zero. -/
def readEpoch : EStateM Error Disk UInt64 := fun d =>
  match Disk.read epochFile d with
  | .error .missing d => .ok 0 d
  | .error .failed d => .error .io d
  | .ok bytes d =>
    match Bytes.toString? bytes with
    | none => .error .io d
    | some text =>
      match Text.word? (Text.trim text.toList) with
      | some n => .ok n d
      | none => .error (.badEpoch text) d

/-- Reads the anchor in a file. -/
def readAnchor (name : String) : EStateM Error Disk (Option Anchor) := fun d =>
  match Disk.read name d with
  | .error .missing d => .ok none d
  | .error .failed d => .error .io d
  | .ok bytes d =>
    match AnchorFile.decode bytes with
    | some a => .ok (some a) d
    | none => .error .malformed d

/-- The index with the anchor of one more file. -/
def indexFile (index : Table ObjectId IndexEntry) (name : String) :
    EStateM Error Disk (Table ObjectId IndexEntry) := do
  if Disk.extension? name = some "cbor" then
    match ← readAnchor name with
    | some a => pure (index.insert a.id ⟨a.version, a.owner⟩)
    | none => throw .io
  else pure index

/-- Recovers a directory and opens the archive in it. -/
def opened (d : Disk) : EStateM.Result Error Disk Archive :=
  match recover d with
  | .error _ d => .error .io d
  | .ok _ d =>
    match (d.names.foldlM indexFile Table.empty : EStateM Error Disk _) d with
    | .error e d => .error e d
    | .ok index d =>
      match readEpoch d with
      | .error e d => .error e d
      | .ok epoch d => .ok ⟨d, index, epoch⟩ d

/-! ## Batches -/

/-- Writes new files one after another. When one fails, it and those before it
are removed. -/
def stage : List String → List (String × Bytes) → EStateM FileError Disk Unit
  | _, [] => pure ()
  | done, (name, content) :: rest => fun d =>
    match Disk.write name content d with
    | .ok _ d => stage (done ++ [name]) rest d
    | .error e d => .error e (Disk.removeAll (name :: done) d)

/-- A swap under way: the disk, the renames so far with the last one first, and
the files moved aside. -/
structure Swap where
  disk : Disk
  renames : List (String × String)
  backups : List String

namespace Swap

/-- A step on the disk of a swap. -/
def onDisk {α : Type} (act : EStateM FileError Disk α) : EStateM FileError Swap α := fun s =>
  match act s.disk with
  | .ok a d => .ok a { s with disk := d }
  | .error e d => .error e { s with disk := d }

/-- A rename that can be undone. -/
def rename (source target : String) : EStateM FileError Swap Unit := do
  onDisk (Disk.rename source target)
  modify fun s => { s with renames := (source, target) :: s.renames }

/-- Moves an object's file aside, if it is there and is a file. -/
def backUp (id : ObjectId) : EStateM FileError Swap Unit := do
  match ← onDisk (Disk.isFile? (fileName id "cbor")) with
  | some true =>
    rename (fileName id "cbor") (fileName id "bak")
    modify fun s => { s with backups := s.backups ++ [fileName id "bak"] }
  | _ => pure ()

/-- Puts one new file in place. -/
def replace (id : ObjectId) : EStateM FileError Swap Unit := do
  backUp id
  rename (fileName id "tmp") (fileName id "cbor")

/-- All renames undone, the last one first. -/
def undo (renames : List (String × String)) (d : Disk) : Disk :=
  renames.foldl (fun d (source, target) => Disk.after (Disk.rename target source) d) d

end Swap

/-- Swaps the new files in and moves the deleted ones aside. -/
def swapIn (writes deletes : List ObjectId) : EStateM FileError Swap Unit := do
  writes.forM Swap.replace
  deletes.forM Swap.backUp

/-- The index after a batch. -/
def overlay (index : Table ObjectId IndexEntry) (batch : Batch) : Table ObjectId IndexEntry :=
  let written := batch.writes.foldl (fun t a => t.insert a.id ⟨a.version, a.owner⟩) index
  batch.deletes.foldl (fun t d => t.erase d.1) written

/-- Carries out the file steps of a batch. -/
def exchange (batch : Batch) : EStateM FileError Disk Unit := fun d =>
  let temporary := batch.writes.map fun a => fileName a.id "tmp"
  let contents := batch.writes.map fun a => (fileName a.id "tmp", AnchorFile.encode a)
  match stage [] contents d with
  | .error e d => .error e d
  | .ok _ d =>
    match swapIn (batch.writes.map (·.id)) (batch.deletes.map (·.1)) ⟨d, [], []⟩ with
    | .ok _ s => .ok () (Disk.removeAll s.backups s.disk)
    | .error e s => .error e (Disk.removeAll temporary (Swap.undo s.renames s.disk))

/-- Applies a batch if every expectation is met. -/
def apply (batch : Batch) : EStateM Error Archive Unit := fun a =>
  match batch.check fun id => (a.index.get? id).map (·.version) with
  | .error e => .error e a
  | .ok _ =>
    match exchange batch a.disk with
    | .ok _ d => .ok () { a with disk := d, index := overlay a.index batch }
    | .error _ d => .error .io { a with disk := d }

/-- Reads one anchor. -/
def fetch (id : ObjectId) : EStateM Error Archive (Option Anchor) := fun a =>
  match readAnchor (fileName id "cbor") a.disk with
  | .ok found d => .ok found { a with disk := d }
  | .error e d => .error e { a with disk := d }

/-- Everything a tenant owns. -/
def ownedBy (a : Archive) (root : RootId) : List ObjectId :=
  (a.index.toList.filter fun e => e.2.owner = root).map (·.1)

/-- The next epoch, written beside its file and renamed. -/
def nextEpoch : EStateM Error Archive UInt64 := fun a =>
  let next := a.epoch + 1
  let temporary := Disk.withExtension epochFile "tmp"
  match Disk.write temporary (Bytes.ofString (toString next.toNat)) a.disk with
  | .error _ d => .error .io { a with disk := d }
  | .ok _ d =>
    match Disk.rename temporary epochFile d with
    | .error _ d => .error .io { a with disk := d }
    | .ok _ d => .ok next { a with disk := d, epoch := next }

instance : Durable Archive where
  fetch := fetch
  apply := apply
  ownedBy := ownedBy
  nextEpoch := nextEpoch
  size a := a.disk.entries.size

end Archive

end Wayfarer
