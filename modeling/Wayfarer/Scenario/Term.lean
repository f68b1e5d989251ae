import Wayfarer.Anchor

/-!
# Handles and terms

A scenario names objects by handles: names bound by its earlier steps, or a
scheme and a label (`root:`, `node:`, `edge:`) from which the identity is
derived. A term is a value in which references are still handles.

* `Scope.resolve` finds the object of a handle.
* `Term.resolve` turns a term into a value.
-/

namespace Wayfarer.Scenario

/-- The names bound so far, and the place an ability body runs at. -/
structure Scope where
  here : Option ObjectId
  names : Table String ObjectId
  deriving Inhabited

namespace Scope

/-- A scope in which nothing is bound. -/
def empty : Scope := ⟨none, Table.empty⟩

/-- The part of a text before its first colon and the part after it. -/
def splitScheme : List Char → Option (List Char × List Char)
  | [] => none
  | ':' :: rest => some ([], rest)
  | c :: rest => (splitScheme rest).map fun (a, b) => (c :: a, b)

/-- The identity that a scheme derives from a label. -/
def derived? (handle : String) : Option ObjectId :=
  match splitScheme handle.toList with
  | none => none
  | some (scheme, label) =>
    let label := String.ofList label
    match String.ofList scheme with
    | "root" => some (RootId.ofTenant label)
    | "node" => some (NodeId.ofLabel label)
    | "edge" => some (EdgeId.ofLabel label)
    | _ => none

/-- The object of a handle; an unbound handle is returned as the error. The
handle of the current place stands for nothing else; for any other, bound names
come before the schemes. -/
def resolve (s : Scope) (handle : String) : Except String ObjectId :=
  match if handle = "@here" then s.here else s.names.get? handle with
  | some id => .ok id
  | none =>
    match derived? handle with
    | some id => .ok id
    | none => .error handle

/-- What items stand for, in order and up to the first with an unbound handle,
and that handle. -/
def resolveUntil {α β : Type} (read : α → Except String β) : List α → List β × Option String
  | [] => ([], none)
  | a :: rest =>
    match read a with
    | .error handle => ([], some handle)
    | .ok b =>
      let (more, unbound) := resolveUntil read rest
      (b :: more, unbound)

/-- A list of handles in order. -/
def resolveAll (s : Scope) (handles : List String) : Except String (List ObjectId) :=
  handles.mapM s.resolve

/-- The scope with a name bound, if one is given. -/
def bind (s : Scope) (name : Option String) (id : ObjectId) : Scope :=
  match name with
  | some name => { s with names := s.names.insert name id }
  | none => s

/-- The scope with names bound pairwise, up to the shorter list. -/
def bindAll (s : Scope) (names : List String) (ids : List ObjectId) : Scope :=
  (names.zip ids).foldl (fun s (name, id) => s.bind (some name) id) s

end Scope

/-- A value whose references are handles. -/
inductive Term
  | null
  | bool (b : Bool)
  | int (n : Int64)
  | float (x : Double)
  | str (s : String)
  | list (items : List Term)
  | map (entries : List (String × Term))
  | ref (handle : String)
  | nest (depth : Nat) (inner : Term)
  deriving Inhabited

namespace Term

mutual

/-- The value of a term. -/
def resolve (s : Scope) : Term → Except String Value
  | .null => .ok .null
  | .bool b => .ok (.bool b)
  | .int n => .ok (.int n)
  | .float x => .ok (.float x)
  | .str t => .ok (.str t)
  | .list items => do pure (.list (← resolveItems s items))
  | .map entries => do pure (Value.ofEntries (← resolveEntries s entries))
  | .ref handle => do pure (.ref (← s.resolve handle))
  | .nest depth inner => do pure (Value.nest depth (← resolve s inner))

/-- The values of a list of terms. -/
def resolveItems (s : Scope) : List Term → Except String (List Value)
  | [] => .ok []
  | t :: rest => do
    let v ← resolve s t
    pure (v :: (← resolveItems s rest))

/-- The values of a list of named terms. -/
def resolveEntries (s : Scope) : List (String × Term) → Except String (List (String × Value))
  | [] => .ok []
  | (name, t) :: rest => do
    let v ← resolve s t
    pure ((name, v) :: (← resolveEntries s rest))

end

/-- The field record of named terms. -/
def resolveFields (s : Scope) (entries : List (String × Term)) : Except String Fields := do
  pure (Fields.ofEntries (← resolveEntries s entries))

end Term

/-- The description of an anchor that a scenario stages by hand. A description
with a source is an edge, any other is a node. -/
structure AnchorTerm where
  id : String
  owner : String
  type : String
  version : UInt64
  everyone : Option Level
  roots : List (String × Level)
  fields : List (String × Term)
  outgoing : List String
  incoming : List String
  source : Option String
  target : String
  directed : Bool
  twin : Option String
  deriving Inhabited

namespace AnchorTerm

/-- The body that a description stands for. -/
def resolveBody (s : Scope) (t : AnchorTerm) (fields : Fields) : Except String Body := do
  let type := TypeId.ofName t.type
  match t.source with
  | some source =>
    let source ← s.resolve source
    let target ← s.resolve t.target
    let twin ←
      match t.twin with
      | some handle => do pure (some (← s.resolve handle).asEdge)
      | none => pure none
    pure (.edge ⟨type, fields, source.asNode, target.asNode, t.directed, twin⟩)
  | none =>
    let outgoing ← s.resolveAll t.outgoing
    let incoming ← s.resolveAll t.incoming
    pure (.node ⟨type, fields, outgoing.map (·.asEdge), incoming.map (·.asEdge)⟩)

/-- The anchor that a description stands for, marked as changed. -/
def resolve (s : Scope) (t : AnchorTerm) : Except String Anchor := do
  let id ← s.resolve t.id
  let fields ← Term.resolveFields s t.fields
  let body ← t.resolveBody s fields
  let roots := Table.ofList (t.roots.map fun (tenant, level) => (RootId.ofTenant tenant, level))
  pure ⟨id, RootId.ofTenant t.owner, ⟨t.everyone, roots⟩, t.version, body, true⟩

end AnchorTerm

end Wayfarer.Scenario
