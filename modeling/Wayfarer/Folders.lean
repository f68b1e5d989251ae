import Wayfarer.Archive
import Wayfarer.Folders.Path

/-!
# Folders

Directories inside each other. Paths are followed from one of them, the base,
name by name, through what is there at the time.

* `Folders.find` follows a path, and `Folders.makeAll` makes the directories
  that are missing on it.
* `Folders.onFile`, `Folders.rename` and `Folders.removeFolder` are the steps on
  what a path names.
* `Folders.openArchive` opens the archive in a directory. `Folders.keep` and
  `Folders.renew` carry what changed between the archive and the directories.
-/

namespace Wayfarer

/-- Where a directory is: the names on the way from the outermost one to it. -/
abbrev Place := List String

namespace Listing

/-- What a directory holds that is inside another. -/
def inside? (listing : Listing) (name : String) : Option Listing :=
  match listing.get? name with
  | some (.folder inside) => some (Table.ofList inside)
  | _ => none

/-- What the directory at a place holds. -/
def at? (listing : Listing) : Place → Option Listing
  | [] => some listing
  | name :: rest => (listing.inside? name).bind (at? · rest)

/-- The listing with the directory at a place changed, if there is one. -/
def change (f : Listing → Listing) (listing : Listing) : Place → Listing
  | [] => f listing
  | name :: rest =>
    match listing.inside? name with
    | some inside => listing.insert name (.folder (change f inside rest).toList)
    | none => listing

end Listing

/-- A directory with those around it, the innermost first, each with the name
that the one before it has there. -/
structure Spot where
  here : Listing
  around : List (String × Listing)

namespace Spot

/-- Where the directory is. -/
def place (s : Spot) : Place := (s.around.map (·.1)).reverse

/-- The directory around this one. The outermost directory has none. -/
def leave (s : Spot) : Spot :=
  match s.around with
  | [] => s
  | (name, outer) :: rest => ⟨outer.insert name (.folder s.here.toList), rest⟩

/-- The outermost directory. -/
def root (s : Spot) : Listing :=
  s.around.foldl (fun inner (name, outer) => outer.insert name (.folder inner.toList)) s.here

/-- Goes one name along a path; two dots lead back out of a directory, but not
out of the outermost one. With `make`, a directory that is missing is made. -/
def enter (make : Bool) (name : String) : EStateM FileError Spot Unit := fun s =>
  if name = ".." then .ok () s.leave
  else if !Disk.accepts name then .error .failed s
  else
    match s.here.get? name with
    | some (.folder inside) => .ok () ⟨Table.ofList inside, (name, s.here) :: s.around⟩
    | some (.file _) => .error .failed s
    | none => if make then .ok () ⟨Table.empty, (name, s.here) :: s.around⟩ else .error .missing s

end Spot

/-- The directory around the base directory, and how paths from outside name the
base. -/
structure Folders where
  base : String
  root : Listing

namespace Folders

/-- The name of the base directory in the one around it. No path can give it, so
one that leads out of the base does not come back. -/
def baseName : String := ""

/-- Nothing but an empty base directory. -/
def new (base : String) : Folders := ⟨base, Table.empty.insert baseName (.folder [])⟩

/-- The base directory. -/
def home (f : Folders) : Spot := ⟨(f.root.inside? baseName).getD Table.empty, [(baseName, f.root)]⟩

/-- What the directory at a place holds. -/
def listing (f : Folders) (place : Place) : Listing := (f.root.at? place).getD Table.empty

/-- The directories with one of them changed. -/
def change (f : Folders) (place : Place) (act : Listing → Listing) : Folders :=
  { f with root := f.root.change act place }

/-- The directories with another content for one of them. -/
def setListing (f : Folders) (place : Place) (listing : Listing) : Folders :=
  f.change place fun _ => listing

/-! ## Following paths -/

/-- Goes along several names from the base. With `make`, directories that are
missing are made, and those made before a failure stay. -/
def follow (make : Bool) (names : List String) : EStateM FileError Folders Place := fun f =>
  match (names.forM (Spot.enter make) : EStateM FileError Spot Unit) f.home with
  | .ok _ spot => .ok spot.place { f with root := spot.root }
  | .error e spot => .error e { f with root := spot.root }

/-- The directory at the end of a path. -/
def find (f : Folders) (path : Path) : Except FileError Place :=
  match follow false path.names f with
  | .ok place _ => .ok place
  | .error e _ => .error e

/-- The directory in which the last name of a path stands, and that name. -/
def locate (path : Path) : EStateM FileError Folders (Place × String) := do
  let place ← follow false path.names.dropLast
  match path.names.getLast? with
  | some name => if Disk.accepts name then pure (place, name) else throw .failed
  | none => throw .failed

/-- Makes every directory that is missing on a path. Those made before a failure
stay. A directory that the path gives with a single dot behind its name must be
there already. -/
def makeAll (path : Path) : EStateM FileError Folders Place := do
  if path.ending = .dot then
    let _ ← follow true path.names.dropLast
    follow false path.names
  else follow true path.names

/-! ## Steps on what a path names -/

/-- A step on the directory at a place. -/
def onDisk {α : Type} (place : Place) (act : EStateM FileError Disk α) :
    EStateM FileError Folders α := fun f =>
  match act (Disk.ofListing (f.listing place)) with
  | .ok a d => .ok a (f.setListing place d.entries)
  | .error e d => .error e (f.setListing place d.entries)

/-- A step on one file, given by its name in the directory where it stands. -/
def onFile {α : Type} (path : Path) (act : String → EStateM FileError Disk α) :
    EStateM FileError Folders α := do
  let (place, name) ← locate path
  if path.ending = .nothing then onDisk place (act name) else throw .failed

/-- Removes an empty directory. -/
def removeFolder (path : Path) : EStateM FileError Folders Unit := do
  let (place, name) ← locate path
  match ((← get).listing place).get? name with
  | none => throw .missing
  | some (.folder []) =>
    if path.ending = .dot then throw .failed
    else modify fun f => f.change place (·.erase name)
  | some _ => throw .failed

/-- Whether an entry may get a path: only a directory has a slash behind its
name, and nothing has a single dot. -/
def fits (entry : FileEntry) (path : Path) : Bool :=
  match path.ending, entry with
  | .nothing, _ => true
  | .slash, .folder _ => true
  | _, _ => false

/-- Renames an entry. A directory takes along what is in it, but cannot go into
itself. -/
def rename (source target : Path) : EStateM FileError Folders Unit := do
  let (place, name) ← locate source
  let (newPlace, newName) ← locate target
  match ((← get).listing place).get? name with
  | none => throw .missing
  | some entry =>
    if !fits entry source || !fits entry target then throw .failed
    else if (place, name) = (newPlace, newName) then pure ()
    else if (place ++ [name]).isPrefixOf newPlace then throw .failed
    else if (((← get).listing newPlace).get? newName).all (Disk.replaces entry) then
      modify fun f => (f.change place (·.erase name)).change newPlace (·.insert newName entry)
    else throw .failed

/-! ## Archives -/

/-- The directory at the end of a path as a disk. Steps fail on one that is
gone, that something else stands in the way of, or whose path is too long to put
the names of files behind it. -/
def disk (f : Folders) (path : Path) : Disk :=
  match f.find path with
  | .ok place =>
    if path.room < Archive.fileNameBytes then Disk.unreachable
    else Disk.ofListing (f.listing place)
  | .error .missing => Disk.absent
  | .error .failed => Disk.unreachable

/-- The directories with the content of a disk at the end of a path, if there is
a directory that can be used. -/
def keep (f : Folders) (path : Path) (d : Disk) : Folders :=
  match f.find path with
  | .ok place => if path.room < Archive.fileNameBytes then f else f.setListing place d.entries
  | .error _ => f

/-- Opens the archive at a path, whose directories are made if they are not
there. When that fails, the directories keep what the attempt did to them. -/
def openArchive (path : Path) : EStateM Error Folders Archive := fun f =>
  match makeAll path f with
  | .error _ f => .error .io f
  | .ok _ f =>
    match Archive.opened (f.disk path) with
    | .ok archive d => .ok archive (f.keep path d)
    | .error e d => .error e (f.keep path d)

/-- The archive at a path after the directories changed. -/
def renew (f : Folders) (path : Path) (archive : Archive) : Archive :=
  { archive with disk := f.disk path }

end Folders

end Wayfarer
