import Wayfarer.Anchor
import Wayfarer.Cbor.Reader

/-!
# Anchor files

The bytes of an anchor file: one CBOR record. Identities are arrays of 32 small
integers, variants are maps of one entry, fields are arrays of name and value.
The mark of change is not written.

* `AnchorFile.encode` writes an anchor.
* `AnchorFile.decode` reads one; bytes after it do not matter. It may open
  `maxLevels` levels.
-/

namespace Wayfarer.AnchorFile

open Cbor

/-- How many levels of arrays, maps and variants a file may open. -/
def maxLevels : Nat := 256

/-! ## Writing -/

/-- A digest. -/
def ofDigest (d : Digest) : Bytes := array (d.bytes.map fun b => natural b.toNat)

/-- The identity of an object. -/
def ofObject : ObjectId → Bytes
  | .node id => variant "Node" (ofDigest id.digest)
  | .edge id => variant "Edge" (ofDigest id.digest)

/-- A level of access. -/
def ofLevel (l : Level) : Bytes := text l.text

mutual

/-- A value. -/
def ofValue : Value → Bytes
  | .null => text "Null"
  | .bool b => variant "Bool" (bool b)
  | .int n => variant "Int" (integer n.toInt)
  | .float x => variant "Float" (float x)
  | .str s => variant "Str" (text s)
  | .list items => variant "List" (array (ofItems items))
  | .map entries => variant "Map" (map (ofEntries entries))
  | .ref id => variant "Ref" (ofObject id)

/-- Each value of a list. -/
def ofItems : List Value → List Bytes
  | [] => []
  | v :: rest => ofValue v :: ofItems rest

/-- Each named value of a list. -/
def ofEntries : List (String × Value) → List (Bytes × Bytes)
  | [] => []
  | (name, v) :: rest => (text name, ofValue v) :: ofEntries rest

end

/-- A field record. -/
def ofFields (f : Fields) : Bytes :=
  array (f.entries.map fun (name, v) => array [text name, ofValue v])

/-- An access list. -/
def ofAccess (a : Access) : Bytes :=
  record [
    ("public", match a.everyone with
      | none => null
      | some l => ofLevel l),
    ("roots", map (a.roots.toList.map fun (root, l) => (ofDigest root.node.digest, ofLevel l)))]

/-- A list of edges. -/
def ofEdges (edges : List EdgeId) : Bytes := array (edges.map fun e => ofDigest e.digest)

/-- A node record. -/
def ofNode (n : NodeRecord) : Bytes :=
  record [("ty", ofDigest n.type.digest), ("fields", ofFields n.fields),
    ("outgoing", ofEdges n.outgoing), ("incoming", ofEdges n.incoming)]

/-- An edge record. -/
def ofEdge (e : EdgeRecord) : Bytes :=
  record [("ty", ofDigest e.type.digest), ("fields", ofFields e.fields),
    ("from", ofDigest e.source.digest), ("to", ofDigest e.target.digest),
    ("directed", bool e.directed),
    ("twin", match e.twin with
      | none => null
      | some t => ofDigest t.digest)]

/-- A body. -/
def ofBody : Body → Bytes
  | .node n => variant "Node" (ofNode n)
  | .edge e => variant "Edge" (ofEdge e)

/-- The file of an anchor. -/
def encode (a : Anchor) : Bytes :=
  record [("id", ofObject a.id), ("owner", ofDigest a.owner.node.digest),
    ("access", ofAccess a.access), ("version", natural a.version.toNat), ("body", ofBody a.body)]

/-! ## Reading -/

/-- Whether a field or variant has a given name. -/
def named (key : Bytes) (name : String) : Bool := key == Bytes.ofString name

/-- A digest. -/
def digest? (limit : Nat) : Reader Digest := do pure (Digest.ofBytes (← fixed? limit 32))

/-- The identity of an object. -/
def object? (limit : Nat) : Reader ObjectId :=
  choice limit fun limit name =>
    if named name "Node" then do pure (.node ⟨← digest? limit⟩)
    else if named name "Edge" then do pure (.edge ⟨← digest? limit⟩)
    else failure

/-- A level of access. -/
def level? (limit : Nat) : Reader Level :=
  choice limit fun _ name =>
    if named name "Read" then pure .read
    else if named name "Connect" then pure .connect
    else if named name "Write" then pure .write
    else failure

/-- A value whose parts are read by `part`, given the levels that remain below a
list or map. -/
def valueWith (limit : Nat) (part : Option (Reader Value)) : Reader Value :=
  choice limit fun limit name =>
    if named name "Null" then pure .null
    else if named name "Bool" then do pure (.bool (← bool?))
    else if named name "Int" then do pure (.int (← signed?))
    else if named name "Float" then do pure (.float (← float?))
    else if named name "Str" then do pure (.str (← text?))
    else if named name "List" then do
      pure (.list (← list? limit fun _ => part.getD failure))
    else if named name "Map" then do
      let entries ← entries? limit [] fun _ acc => do
        let key ← text?
        let v ← part.getD failure
        pure (acc ++ [(key, v)])
      pure (Value.ofEntries entries)
    else if named name "Ref" then do pure (.ref (← object? limit))
    else failure

/-- A value. A list or map takes one level and the variant around it another. -/
def value? : Nat → Reader Value
  | 0 => failure
  | 1 => valueWith 1 none
  | limit + 2 => valueWith (limit + 2) (some (value? limit))

/-- A field record. -/
def fields? (limit : Nat) : Reader Fields := do
  pure ⟨← list? limit fun limit => pair? limit (fun _ => text?) value?⟩

/-- The fields of an access list seen so far. -/
structure AccessSlots where
  everyone : Option (Option Level) := none
  roots : Option (Table RootId Level) := none

/-- An access list; without a public level there is none. -/
def access? (limit : Nat) : Reader Access := do
  let slots ← entries? limit ({} : AccessSlots) fun limit s => do
    let key ← name?
    if named key "public" then
      once s.everyone (option? (level? limit)) fun l => { s with everyone := some l }
    else if named key "roots" then
      let roots := entries? limit Table.empty fun limit acc => do
        let root ← digest? limit
        let l ← level? limit
        pure (acc.insert (⟨⟨root⟩⟩ : RootId) l)
      once s.roots roots fun r => { s with roots := some r }
    else do
      ignore limit
      pure s
  pure ⟨slots.everyone.getD none, ← need slots.roots⟩

/-- A list of edges. -/
def edges? (limit : Nat) : Reader (List EdgeId) :=
  list? limit fun limit => do pure ⟨← digest? limit⟩

/-- The fields of a node record seen so far. -/
structure NodeSlots where
  type : Option TypeId := none
  fields : Option Fields := none
  outgoing : Option (List EdgeId) := none
  incoming : Option (List EdgeId) := none

/-- A node record. -/
def node? (limit : Nat) : Reader NodeRecord := do
  let slots ← entries? limit ({} : NodeSlots) fun limit s => do
    let key ← name?
    if named key "ty" then
      once s.type (digest? limit) fun d => { s with type := some ⟨d⟩ }
    else if named key "fields" then
      once s.fields (fields? limit) fun f => { s with fields := some f }
    else if named key "outgoing" then
      once s.outgoing (edges? limit) fun es => { s with outgoing := some es }
    else if named key "incoming" then
      once s.incoming (edges? limit) fun es => { s with incoming := some es }
    else do
      ignore limit
      pure s
  pure ⟨← need slots.type, ← need slots.fields, ← need slots.outgoing, ← need slots.incoming⟩

/-- The fields of an edge record seen so far. -/
structure EdgeSlots where
  type : Option TypeId := none
  fields : Option Fields := none
  source : Option NodeId := none
  target : Option NodeId := none
  directed : Option Bool := none
  twin : Option (Option EdgeId) := none

/-- An edge record; without a twin there is none. -/
def edge? (limit : Nat) : Reader EdgeRecord := do
  let slots ← entries? limit ({} : EdgeSlots) fun limit s => do
    let key ← name?
    if named key "ty" then
      once s.type (digest? limit) fun d => { s with type := some ⟨d⟩ }
    else if named key "fields" then
      once s.fields (fields? limit) fun f => { s with fields := some f }
    else if named key "from" then
      once s.source (digest? limit) fun d => { s with source := some ⟨d⟩ }
    else if named key "to" then
      once s.target (digest? limit) fun d => { s with target := some ⟨d⟩ }
    else if named key "directed" then
      once s.directed bool? fun b => { s with directed := some b }
    else if named key "twin" then
      once s.twin (option? (digest? limit)) fun t => { s with twin := some (t.map EdgeId.mk) }
    else do
      ignore limit
      pure s
  pure ⟨← need slots.type, ← need slots.fields, ← need slots.source, ← need slots.target,
    ← need slots.directed, slots.twin.getD none⟩

/-- A body. -/
def body? (limit : Nat) : Reader Body :=
  choice limit fun limit name =>
    if named name "Node" then do pure (.node (← node? limit))
    else if named name "Edge" then do pure (.edge (← edge? limit))
    else failure

/-- The fields of an anchor seen so far. -/
structure AnchorSlots where
  id : Option ObjectId := none
  owner : Option RootId := none
  access : Option Access := none
  version : Option UInt64 := none
  body : Option Body := none

/-- An anchor, clean. -/
def anchor? (limit : Nat) : Reader Anchor := do
  let slots ← entries? limit ({} : AnchorSlots) fun limit s => do
    let key ← name?
    if named key "id" then
      once s.id (object? limit) fun x => { s with id := some x }
    else if named key "owner" then
      once s.owner (digest? limit) fun d => { s with owner := some ⟨⟨d⟩⟩ }
    else if named key "access" then
      once s.access (access? limit) fun x => { s with access := some x }
    else if named key "version" then
      once s.version word? fun v => { s with version := some v }
    else if named key "body" then
      once s.body (body? limit) fun x => { s with body := some x }
    else do
      ignore limit
      pure s
  pure ⟨← need slots.id, ← need slots.owner, ← need slots.access, ← need slots.version,
    ← need slots.body, false⟩

/-- The anchor at the front of a file. -/
def decode (bytes : Bytes) : Option Anchor := (anchor? maxLevels bytes).map (·.1)

end Wayfarer.AnchorFile
