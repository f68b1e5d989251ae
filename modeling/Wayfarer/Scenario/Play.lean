import Wayfarer.Scenario.World

/-!
# Playing scenarios

Steps run one after another, and a failed step does not end the scenario.

* `World.perform` carries one step out.
-/

namespace Wayfarer.Scenario

namespace World

/-! ## Names -/

/-- Something resolved among the bound names. -/
def resolved {α : Type} (read : Scope → Except String α) : Play α := do
  match read ⟨none, (← get).names⟩ with
  | .ok a => pure a
  | .error name => throw (.unbound name)

/-- What items stand for up to the first with an unbound handle, and that
handle. -/
def resolvedUntil {α β : Type} (read : Scope → α → Except String β) (items : List α) :
    Play (List β × Option String) := do
  pure (Scope.resolveUntil (read ⟨none, (← get).names⟩) items)

/-- Refuses a step that met an unbound handle, after what came before it was
carried out. -/
def complete (unbound : Option String) : Play Unit :=
  match unbound with
  | some handle => throw (.unbound handle)
  | none => pure ()

/-- The object of a handle. -/
def object (handle : String) : Play ObjectId := resolved (·.resolve handle)

/-- Binds names to objects pairwise, up to the shorter list; a missing name is
passed over. -/
def bindAll (names : List (Option String)) (ids : List ObjectId) : Play Unit := modify fun w =>
  let scope : Scope := ⟨none, w.names⟩
  let scope := (names.zip ids).foldl (fun (s : Scope) (name, id) => s.bind name id) scope
  { w with names := scope.names }

/-! ## Sessions and desks -/

/-- An open session. -/
def session (name : String) : Play Session := do
  match (← get).sessions.get? name with
  | some s => pure s
  | none => throw (.unbound name)

/-- The draft of an open desk. -/
def draft (name : String) : Play Draft := do
  match (← get).drafts.get? name with
  | some d => pure d
  | none => throw (.unbound name)

/-- Work with a draft, which goes back to where it came from. -/
def work {α : Type} (draft : Draft) (trouble : Error → Trouble) (keep : Draft → World → World)
    (job : Work Observed α) : Play α := do
  let (result, draft, r) := (← realm).work draft job
  setRealm r
  modify (keep draft)
  match result with
  | .ok a => pure a
  | .error e => throw (trouble e)

/-- Work of a session. -/
def inSession {α : Type} (name : String) (trouble : Error → Trouble)
    (job : Session → Work Observed α) : Play α := do
  let s ← session name
  let keep (d : Draft) (w : World) : World :=
    { w with sessions := w.sessions.insert name { s with draft := d } }
  work s.draft trouble keep (job s)

/-- Work at a desk. -/
def atDesk {α : Type} (name : String) (job : Work Observed α) : Play α := do
  let d ← draft name
  let keep (d : Draft) (w : World) : World := { w with drafts := w.drafts.insert name d }
  work d .refused keep job

/-- A step of the durable tier. -/
def onDurable {α : Type} (act : EStateM Error Observed α) : Play α := do
  let r ← realm
  match Shared.onDurable act r.shared with
  | .ok a shared =>
    setRealm { r with shared := shared }
    pure a
  | .error e shared =>
    setRealm { r with shared := shared }
    throw (.refused e)

/-- Changes the shared tiers of the realm. -/
def onShared (f : Shared Observed → Shared Observed) : Play Unit := do
  let r ← realm
  setRealm { r with shared := f r.shared }

/-- A graph call in a session. -/
def call (name : String) (term : CallTerm) (names : List (Option String)) : Play Reply := do
  let s ← session name
  let c ← resolved term.resolve
  let actor := (← realm).actor s.root
  let answer ← inSession name .refused fun _ => c.run actor
  bindAll names (c.ids answer)
  pure (.call c answer)

/-- A step at a desk. -/
def deskStep (name : String) (step : DeskStep) : Play Reply := do
  let d ← draft name
  match step with
  | .load id => do
    let id ← object id
    pure (.anchor (← atDesk name (Desk.load id)))
  | .update id fields => do
    let id ← object id
    let read (s : Scope) (entry : String × Term) : Except String (String × Value) := do
      pure (entry.1, ← entry.2.resolve s)
    let (entries, unbound) ← resolvedUntil read fields
    let change (a : Anchor) : Anchor :=
      { a.withFields (a.fields.overlay (Fields.ofEntries entries)) with dirty := true }
    let before ← atDesk name (Desk.update? id change)
    if before.isSome then complete unbound
    pure (.anchor (before.map change))
  | .stage anchors => do
    let (anchors, unbound) ← resolvedUntil (fun s t => t.resolve s) anchors
    atDesk name (anchors.forM Desk.stage)
    complete unbound
    pure .nothing
  | .delete id => do
    let id ← object id
    atDesk name (Desk.delete id)
    pure .nothing
  | .commit => do pure (.receipt (← atDesk name Desk.commit))
  | .rollback => do
    atDesk name (Desk.onDraft Draft.rollback)
    pure .nothing
  | .evictVolatile => do
    atDesk name (Desk.onDraft Draft.evictVolatile)
    pure .nothing
  | .evictUnreachable tenant => do
    pure (.ids (← atDesk name (Desk.evictUnreachable (RootId.ofTenant tenant))))
  | .pending => pure (.flag d.hasPending)
  | .stats => pure (.stats d.stats)
  | .describe => pure (.text d.describe)

/-! ## Walks -/

/-- The fuel of a walk. -/
def walkFuel : Nat := 10000000

/-- What abilities do in this world: scripts where they are given, the travel
schema otherwise. -/
def conduct (w : World) (ability : Ability) : Conduct Unit :=
  let token := if w.tokens = 0 then none else some (w.tokens - 1)
  let lib : Library := ⟨w.setup.scripts, token⟩
  match w.setup.bodies.get? ability.name with
  | some (some script) => Script.conduct lib script
  | some none => pure ()
  | none => Travel.conduct ability.name

/-- A new token, set at once or not. -/
def newToken (cancelled : Bool) : Play Token := do
  let token := (← get).tokens
  modify fun w => { w with tokens := token + 1 }
  if cancelled && (← get).running.isSome then
    onShared fun s => { s with cancelled := s.cancelled.add token }
  pure token

/-- The request that a description stands for. -/
def request (t : SpawnTerm) : Play (RootId × SpawnRequest) := do
  let fields ← resolved fun s => Term.resolveFields s t.fields
  let start ← t.start.mapM object
  let token ← t.cancel.mapM newToken
  pure (RootId.ofTenant t.tenant, ⟨t.traveler, fields, start, ⟨t.budget, t.maxSteps, token⟩⟩)

/-- The world in which the notes of the realm are bound. -/
def takeNotes (w : World) : World :=
  match w.running with
  | some running => { w with names := running.current.shared.notes }
  | none => w

/-- A step that abilities take part in. They find the bound names among their
notes, and what they note is bound afterwards, also when the step fails. -/
def noting {α : Type} (act : Play α) : Play α := do
  let names := (← get).names
  onShared fun s => { s with notes := names }
  fun w =>
    match act w with
    | .ok a w => .ok a w.takeNotes
    | .error e w => .error e w.takeNotes

/-- Runs one walk, through the host if there is one. -/
def spawn (t : SpawnTerm) : Play Reply := do
  let (root, request) ← request t
  let running ← active
  let conduct := (← get).conduct
  let journey ← noting <|
    match running with
    | .realm _ => inRealm (Realm.spawn conduct walkFuel root request)
    | .host _ => inHost (Host.submit conduct walkFuel root request)
  bindAll (t.pathNames.map some) journey.traveler.path
  pure (.journey journey)

/-- Runs several walks through the host. -/
def submitAll (walks : List SpawnTerm) : Play Reply := do
  let requests ← walks.mapM request
  inHost (pure ())
  let conduct := (← get).conduct
  let results ← noting <| inHost fun h =>
    let (results, h) := Host.submitAll conduct walkFuel requests h
    .ok results h
  (walks.zip results).forM fun (t, result) =>
    match result with
    | .ok journey => bindAll (t.pathNames.map some) journey.traveler.path
    | .error _ => pure ()
  pure (.journeys results)

/-! ## Files -/

/-- The name of a file as seen from the store directory. -/
def fileName : FileTerm → Play String
  | .named name => pure name
  | .ofObject handle ext => do pure (Archive.fileName (← object handle) ext)

/-- The directories as the archive that runs in one of them has them. -/
def currentFolders (w : World) : Folders :=
  match w.running with
  | none => w.folders
  | some running => w.folders.withStorage running.current.shared.durable.storage

/-- The world with other directories, also for the archive that runs in one of
them. -/
def withFolders (w : World) (f : Folders) : World :=
  let w := { w with folders := f }
  match w.running with
  | none => w
  | some running =>
    let r := running.current
    let storage := r.shared.durable.storage.renew f
    let shared := { r.shared with durable := { r.shared.durable with storage := storage } }
    { w with running := some (running.withRealm { r with shared := shared }) }

/-- A step on the files, which the archive that runs finds changed. -/
def onFiles {α : Type} (act : EStateM FileError Folders α) : Play α := fun w =>
  match act w.currentFolders with
  | .ok a f => .ok a (w.withFolders f)
  | .error _ f => .error .file (w.withFolders f)

/-- A step on what a name stands for. -/
def onPath {α : Type} (name : String) (act : Path → EStateM FileError Folders α) :
    EStateM FileError Folders α :=
  match Path.within? storeName name with
  | some path => act path
  | none => throw .failed

/-- A step on files. -/
def fileStep : FileStep → Play Reply
  | .list => do
    let names ← onFiles do
      let place ← Folders.follow false storePath.names
      pure ((← get).listing place).keys
    pure (.names names)
  | .read file => do
    let name ← fileName file
    pure (.bytes (← onFiles (onPath name fun path => Folders.onFile path Disk.read)))
  | .write file content => do
    let name ← fileName file
    onFiles (onPath name fun path => Folders.onFile path (Disk.write · content))
    pure .nothing
  | .rename file target => do
    let name ← fileName file
    let newName ← fileName target
    onFiles (onPath name fun source => onPath newName fun target => Folders.rename source target)
    pure .nothing
  | .remove file => do
    let name ← fileName file
    onFiles (onPath name fun path => Folders.onFile path Disk.remove)
    pure .nothing
  | .makeFolder file => do
    let name ← fileName file
    let _ ← onFiles (onPath name Folders.makeAll)
    pure .nothing
  | .removeFolder file => do
    let name ← fileName file
    onFiles (onPath name Folders.removeFolder)
    pure .nothing

/-! ## All steps -/

/-- The vault that outlives restarts. -/
def currentVault (w : World) : Vault := w.close.vault

/-- Carries one step out. -/
def perform (step : Step) : Play Reply := do
  match step with
  | .call name term names => call name term names
  | .desk name step => deskStep name step
  | .createRoot tenant => do
    let root ←
      match ← active with
      | .realm _ => inRealm (Realm.createRoot tenant)
      | .host _ => inHost (Host.createRoot tenant)
    pure (.id root)
  | .openSession name tenant => do
    let s ← inRealm (Realm.session (RootId.ofTenant tenant))
    modify fun w => { w with sessions := w.sessions.insert name s }
    pure (.id s.root)
  | .commit name => do pure (.receipt (← inSession name .realm fun s => Desk.conclude s.root))
  | .evict name => do
    inSession name .realm fun _ => Desk.onDraft Draft.evictVolatile
    pure .nothing
  | .rollback name => do
    inSession name .realm fun _ => Desk.onDraft Draft.rollback
    pure .nothing
  | .drop name => do
    let existed := (← get).sessions.contains name
    modify fun w => { w with sessions := w.sessions.erase name }
    pure (.flag existed)
  | .spawn walk => spawn walk
  | .submitAll walks => submitAll walks
  | .idleSlots => do pure (.number (← inHost (do pure (← get).idleSlots)))
  | .shutdown => do
    inHost (modify Host.shutdown)
    pure .nothing
  | .restart => do
    begin
    pure .nothing
  | .config => do pure (.config (← realm).config)
  | .describe => do pure (.text (← realm).describe)
  | .ownedBy tenant => do pure (.ids ((← realm).ownedBy (RootId.ofTenant tenant)))
  | .cacheSize => do pure (.size (← realm).shared.cache.size)
  | .cacheGet id => do
    let id ← object id
    let shared := (← realm).shared
    pure (.anchor (shared.cache.get? shared.now id))
  | .cacheClear => do
    onShared fun s => { s with cache := s.cache.clear }
    pure .nothing
  | .vaultSize => do pure (.size (← get).currentVault.anchors.size)
  | .counts => do
    match (← get).counts with
    | some (fetches, applies) => pure (.counts fetches applies)
    | none => pure .nothing
  | .fetch id => do
    let id ← object id
    pure (.anchor (← onDurable (Durable.fetch id)))
  | .apply writes deletes => do
    let writes ← resolved fun s => writes.mapM (·.resolve s)
    let deletes ← deletes.mapM fun (handle, version) => do pure (← object handle, version)
    let batch : Batch := ⟨writes, deletes⟩
    onDurable (Durable.apply batch)
    pure (.emptyBatch batch.isEmpty)
  | .epoch => do pure (.number (← onDurable Durable.nextEpoch).toNat)
  | .arm id => do
    let id ← object id
    if (← get).counted && (← get).running.isSome then
      onShared fun s => { s with durable := { s.durable with rival := some id } }
    pure .nothing
  | .openDesk name => do
    let _ ← realm
    modify fun w => { w with drafts := w.drafts.insert name Draft.empty }
    pure .nothing
  | .sleep millis => do
    if (← get).running.isSome then onShared (·.sleep millis)
    pure .nothing
  | .files step => fileStep step

end World

end Wayfarer.Scenario
