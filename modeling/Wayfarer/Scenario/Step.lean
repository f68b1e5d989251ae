import Wayfarer.Host
import Wayfarer.Scenario.Call

/-!
# Steps

The steps of a scenario, what they answer and why they fail. Objects are given
by handles.
-/

namespace Wayfarer.Scenario

/-- A walk as a scenario describes it. `cancel` gives it a token, set from the
start or not. -/
structure SpawnTerm where
  tenant : String
  traveler : String
  fields : List (String × Term)
  start : Option String
  budget : Option Nat
  maxSteps : Option Nat
  cancel : Option Bool
  pathNames : List String

/-- A file of the store directory, by name or as the file of an object. -/
inductive FileTerm
  | named (name : String)
  | ofObject (handle ext : String)

/-- A step on the files of the store directory. -/
inductive FileStep
  | list
  | read (file : FileTerm)
  | write (file : FileTerm) (content : Bytes)
  | rename (file target : FileTerm)
  | remove (file : FileTerm)
  | makeFolder (file : FileTerm)
  | removeFolder (file : FileTerm)

/-- A step at a desk that belongs to no tenant. -/
inductive DeskStep
  | load (id : String)
  | update (id : String) (fields : List (String × Term))
  | stage (anchors : List AnchorTerm)
  | delete (id : String)
  | commit
  | rollback
  | evictVolatile
  | evictUnreachable (tenant : String)
  | pending
  | stats
  | describe

/-- A step of a scenario. -/
inductive Step
  | call (session : String) (call : CallTerm) (names : List (Option String))
  | desk (name : String) (step : DeskStep)
  | createRoot (tenant : String)
  | openSession (name tenant : String)
  | commit (session : String)
  | evict (session : String)
  | rollback (session : String)
  | drop (session : String)
  | spawn (walk : SpawnTerm)
  | submitAll (walks : List SpawnTerm)
  | idleSlots
  | shutdown
  | restart
  | config
  | describe
  | ownedBy (tenant : String)
  | cacheSize
  | cacheGet (id : String)
  | cacheClear
  | vaultSize
  | counts
  | fetch (id : String)
  | apply (writes : List AnchorTerm) (deletes : List (String × UInt64))
  | epoch
  | arm (id : String)
  | openDesk (name : String)
  | sleep (millis : Nat)
  | files (step : FileStep)

/-- What a step answers. -/
inductive Reply
  | nothing
  | call (c : Call) (answer : c.Answer)
  | id (id : ObjectId)
  | ids (ids : List ObjectId)
  | flag (value : Bool)
  | number (n : Nat)
  | size (n : Nat)
  | counts (fetches applies : Nat)
  | stats (stats : Stats)
  | receipt (receipt : Receipt)
  | anchor (anchor : Option Anchor)
  | journey (journey : Journey)
  | journeys (results : List (Except HostError Journey))
  | config (config : RealmConfig)
  | text (text : String)
  | bytes (bytes : Bytes)
  | names (names : List String)
  | emptyBatch (value : Bool)

/-- Why a step fails. -/
inductive Trouble
  /-- Nothing has that name. -/
  | unbound (name : String)
  /-- No realm is running. -/
  | noRealm
  /-- No host is running. -/
  | noHost
  /-- A desk or the durable tier refused. -/
  | refused (cause : Error)
  /-- The realm refused a request. -/
  | realm (cause : Error)
  /-- The host refused. -/
  | host (cause : HostError)
  /-- A file operation failed. -/
  | file

end Wayfarer.Scenario
