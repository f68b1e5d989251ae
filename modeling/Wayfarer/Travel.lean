import Wayfarer.Walk.Conduct

/-!
# Travel schema

A ready-made schema of places, roads and travelers, with what its abilities do
and with small graphs over it. Every place reports when a traveler enters and
leaves it, so the reports of a walk spell out its order; a road reports when it
is crossed.

* `Travel.schema` declares the types and abilities, `Travel.conduct` says what
  each ability does.
* `Travel.place`, `Travel.chain` and `Travel.star` build graphs.
-/

namespace Wayfarer.Travel

/-- Places and towns, roads, and three kinds of walker. -/
def types : List TypeDecl :=
  [⟨"place", .node, none, ⟨[("name", .str "")]⟩⟩,
   ⟨"town", .node, some "place", ⟨[("population", .int 0)]⟩⟩,
   ⟨"road", .edge, none, ⟨[("label", .str ""), ("weight", .int 0)]⟩⟩,
   ⟨"roamer", .walker, none, ⟨[("visited", .int 0)]⟩⟩,
   ⟨"stopper", .walker, some "roamer", ⟨[("stop_at", .str "")]⟩⟩,
   ⟨"edge_roamer", .walker, none, ⟨[]⟩⟩]

/-- What the walkers do, then what places and roads report. -/
def abilities : List AbilityDecl :=
  [⟨"fan_out", "roamer", .entry, []⟩,
   ⟨"halt_at_mark", "stopper", .entry, []⟩,
   ⟨"fan_out_edges", "edge_roamer", .entry, ["place"]⟩,
   ⟨"record_entry", "place", .entry, []⟩,
   ⟨"record_exit", "place", .exit, []⟩,
   ⟨"record_crossing", "road", .entry, []⟩]

/-- The travel schema. -/
def schema : Schema := Schema.base.extend types abilities

/-! ## What the abilities do -/

/-- A text field of the place; empty if it has none. -/
def textHere (field : String) : Conduct String := do
  let here := (← Conduct.stop).here
  let value : Option Value ← Conduct.perform (.get here field)
  pure ((value.bind Value.str?).getD "")

/-- Ends the walk at the place whose name the traveler has in its field
`stop_at`. -/
def haltAtMark : Conduct Unit := do
  match ((← Conduct.fields).get? "stop_at").bind Value.str? with
  | none => pure ()
  | some mark =>
    if mark.isEmpty then pure ()
    else if (← textHere "name") = mark then Conduct.deed .disengage
    else pure ()

/-- What an ability of the travel schema does. -/
def conduct (ability : String) : Conduct Unit :=
  match ability with
  | "fan_out" => do Conduct.visit (← Conduct.neighbors .outgoing)
  | "fan_out_edges" => do Conduct.visit (← Conduct.edges .outgoing)
  | "halt_at_mark" => haltAtMark
  | "record_entry" => do Conduct.report (.str ("enter:" ++ (← textHere "name")))
  | "record_exit" => do Conduct.report (.str ("exit:" ++ (← textHere "name")))
  | "record_crossing" => do Conduct.report (.str ("cross:" ++ (← textHere "label")))
  | _ => pure ()

/-- The rest of a text after a mark it starts with. -/
def after? (mark text : String) : Option String :=
  if mark.toList.isPrefixOf text.toList then
    some (String.ofList (text.toList.drop mark.toList.length))
  else none

/-- The names of the places entered, as the reports of a walk tell them. -/
def entered (reports : List Value) : List String :=
  (reports.filterMap Value.str?).filterMap (after? "enter:")

/-! ## Small graphs -/

section Graphs

variable {m : Type → Type} [Monad m] [GraphMonad m]

/-- A place of a given name. -/
def place (name : String) : m NodeId :=
  GraphMonad.perform (.create "place" ⟨[("name", .str name)]⟩)

/-- A new place at the end of a road from another one. -/
def placeBeyond (source : NodeId) (name : String) : m NodeId := do
  let next ← place name
  let road : Op := .connect source next "road" ⟨[("label", .str name)]⟩ true
  let _ ← GraphMonad.perform road
  pure next

/-- Places in a row, each at the end of a road from the one before. -/
def chain (source : NodeId) : List String → m (List NodeId)
  | [] => pure []
  | name :: rest => do
    let next ← placeBeyond source name
    pure (next :: (← chain next rest))

/-- Places around a hub, each at the end of a road from it. -/
def star (hub : NodeId) (names : List String) : m (List NodeId) := names.mapM (placeBeyond hub)

variable [MonadExcept Error m]

/-- The answer of an operation, if it succeeds. -/
def attempt (op : Op) : m (Option op.Answer) :=
  tryCatch (do pure (some (← GraphMonad.perform op))) fun _ => pure none

/-- How an object is called on a walk: a place by its name, a road by its label
after a tilde. -/
def nameOf (id : ObjectId) : m String := do
  let type : Option TypeId ← attempt (.typeOf id)
  if type = some rootType then
    pure "root"
  else
    let (field, mark) := if id.isNode then ("name", "") else ("label", "~")
    let value : Option (Option Value) ← attempt (.get id field)
    match value with
    | some (some (.str name)) => pure (mark ++ name)
    | _ => pure "?"

end Graphs

end Wayfarer.Travel
