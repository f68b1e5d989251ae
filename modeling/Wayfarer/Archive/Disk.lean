import Wayfarer.Bytes
import Wayfarer.Table

/-!
# Disk

One directory and the operations on it, each of them one numbered step. A step
may be made to fail by a schedule of faults; a failing write may leave part of
its content behind. Without faults a step fails only for the reasons a file
system has: a name that is missing, taken by a directory or not acceptable.

* `Disk.read`, `Disk.write`, `Disk.rename`, `Disk.remove` and `Disk.isFile?` are
  the steps.
* `Disk.removeQuietly` removes a file if it can.
-/

namespace Wayfarer

/-- What a name of a directory stands for: a file, or a directory with names of
its own. -/
inductive FileEntry
  | file (content : Bytes)
  | folder (inside : List (String × FileEntry))

/-- The names of a directory and what they stand for. -/
abbrev Listing := Table String FileEntry

/-- Why a step failed. -/
inductive FileError
  | missing
  | failed
  deriving DecidableEq

/-- How a step is made to fail. -/
inductive Fault
  /-- Nothing happens. -/
  | refused
  /-- A write leaves these bytes; any other step does nothing. -/
  | torn (left : Bytes)
  /-- A write does nothing; any other step goes on. -/
  | unwritable

/-- A directory, the number of steps taken on it, and the faults to come. -/
structure Disk where
  entries : Listing
  steps : Nat
  faults : Nat → Option Fault

namespace Disk

/-- A directory on which nothing goes wrong. -/
def ofListing (entries : Listing) : Disk := ⟨entries, 0, fun _ => none⟩

/-- An empty directory on which nothing goes wrong. -/
def empty : Disk := ofListing Table.empty

instance : Inhabited Disk := ⟨empty⟩

/-- A directory that is not there: nothing is found in it, and nothing can be
written. -/
def absent : Disk := { empty with faults := fun _ => some .unwritable }

/-- A directory that cannot be reached: every step fails. -/
def unreachable : Disk := { empty with faults := fun _ => some .refused }

/-- Whether the file system accepts a name. -/
def accepts (name : String) : Bool :=
  !name.isEmpty && name != "." && name != ".." && name.utf8ByteSize ≤ 255 &&
    name.toList.all fun c => c != '/' && c.toNat != 0

/-- The part of a name before its last dot and the part after it. A dot in front
does not count. -/
def splitExtension (name : String) : Option (String × String) :=
  let cs := name.toList.reverse
  let ext := cs.takeWhile (· != '.')
  match cs.drop ext.length with
  | '.' :: stem =>
    if stem.isEmpty then none
    else some (String.ofList stem.reverse, String.ofList ext.reverse)
  | _ => none

/-- The extension of a name. -/
def extension? (name : String) : Option String := (splitExtension name).map (·.2)

/-- The name of the directory around this one. -/
def around : String := ".."

/-- The name with another extension. Without its extension, a name that starts
with two dots and has no others is that of the directory around, which takes no
extension. -/
def withExtension (name ext : String) : String :=
  match splitExtension name with
  | some (stem, _) => if stem = "." then around else stem ++ "." ++ ext
  | none => name ++ "." ++ ext

/-- Whether a name stands for something. The directory around is always
there. -/
def finds (d : Disk) (name : String) : Bool := name = around || d.entries.contains name

/-- One step that may change the entries. -/
def step {α : Type} (name : String) (act : Listing → Except FileError (α × Listing)) :
    EStateM FileError Disk α := fun d =>
  let next := { d with steps := d.steps + 1 }
  let go : EStateM.Result FileError Disk α :=
    if !accepts name then .error .failed next
    else
      match act d.entries with
      | .ok (a, entries) => .ok a { next with entries := entries }
      | .error e => .error e next
  match d.faults d.steps with
  | none => go
  | some .unwritable => go
  | some _ => .error .failed next

/-- The content of a file. -/
def read (name : String) : EStateM FileError Disk Bytes :=
  step name fun entries =>
    match entries.get? name with
    | none => .error .missing
    | some (.folder _) => .error .failed
    | some (.file content) => .ok (content, entries)

/-- The entries after a file was written, unless a directory has its name. -/
def placed (entries : Listing) (name : String) (content : Bytes) : Except FileError Listing :=
  match entries.get? name with
  | some (.folder _) => .error .failed
  | _ => .ok (entries.insert name (.file content))

/-- Writes a file, replacing what it held. -/
def write (name : String) (content : Bytes) : EStateM FileError Disk Unit := fun d =>
  let next := { d with steps := d.steps + 1 }
  match d.faults d.steps with
  | some .unwritable => .error .failed next
  | some (.torn left) =>
    match placed d.entries name left with
    | .ok entries => .error .failed { next with entries := entries }
    | .error _ => .error .failed next
  | _ =>
    step name (fun entries => do
      let entries ← placed entries name content
      pure ((), entries)) d

/-- Whether an entry may take the place of another. A file replaces a file, and
a directory an empty directory. -/
def replaces : FileEntry → FileEntry → Bool
  | .file _, .file _ => true
  | .folder _, .folder inside => inside.isEmpty
  | _, _ => false

/-- Renames an entry. -/
def rename (source target : String) : EStateM FileError Disk Unit :=
  step target fun entries =>
    match entries.get? source, entries.get? target with
    | none, _ => .error .missing
    | some entry, none => .ok ((), (entries.erase source).insert target entry)
    | some entry, some other =>
      if source = target then .ok ((), entries)
      else if replaces entry other then .ok ((), (entries.erase source).insert target entry)
      else .error .failed

/-- Removes a file. -/
def remove (name : String) : EStateM FileError Disk Unit :=
  step name fun entries =>
    match entries.get? name with
    | none => .error .missing
    | some (.folder _) => .error .failed
    | some (.file _) => .ok ((), entries.erase name)

/-- Whether a name stands for a file; `none` if it stands for nothing. -/
def isFile? (name : String) : EStateM FileError Disk (Option Bool) :=
  step name fun entries =>
    match entries.get? name with
    | none => .ok (none, entries)
    | some (.folder _) => .ok (some false, entries)
    | some (.file _) => .ok (some true, entries)

/-- The disk after a step, whether it succeeded or not. -/
def after {α : Type} (act : EStateM FileError Disk α) (d : Disk) : Disk :=
  match act d with
  | .ok _ d => d
  | .error _ d => d

/-- Removes a file if it can. -/
def removeQuietly (name : String) (d : Disk) : Disk := after (remove name) d

/-- Removes each of several files if it can. -/
def removeAll (names : List String) (d : Disk) : Disk :=
  names.foldl (fun d name => removeQuietly name d) d

/-- All names in order. -/
def names (d : Disk) : List String := d.entries.keys

end Disk

end Wayfarer
