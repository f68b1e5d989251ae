import Wayfarer.Realm
import Wayfarer.Proofs.Commit.Drafts
import Wayfarer.Proofs.Sound.Operations
import Wayfarer.Proofs.Sound.Reclaiming

/-!
# Concourse

Many sessions at once in one realm over a vault. Each act is carried out as a
whole, and acts of different sessions may follow one another in any order.

* `Concourse.step` and `Concourse.play` carry out one act and a list of them.
* `Concourse.sends` is the batch that an act gets into the vault, if it does.
* `Orderly` is what holds between any two acts.
-/

namespace Wayfarer

/-- A realm over a vault with the sessions that are open in it. -/
structure Concourse where
  realm : Realm Vault
  sessions : Table String Session

/-- Something that happens in a concourse. -/
inductive Act
  | createRoot (tenant : String)
  /-- Opens a session; one of the same name is dropped. -/
  | enter (name : String) (root : RootId)
  | perform (name : String) (op : Op)
  | commit (name : String)
  | rollback (name : String)
  | evict (name : String)
  | leave (name : String)
  | wait (millis : Nat)

/-- How many identities an act may mint at most. -/
def Act.mints : Act → Nat
  | .perform _ op => op.mints
  | _ => 0

/-- The batch that a commit at this desk gets into the vault. -/
def Desk.sent (d : Desk Vault) : Option Batch :=
  match Desk.commit d with
  | .ok _ _ => some d.draft.batch
  | .error _ _ => none

/-- Whether an object awaits a commit. -/
def Draft.awaits (d : Draft) (id : ObjectId) : Bool :=
  d.tombstones.contains id || (d.volatile.get? id).any (·.dirty)

namespace Concourse

variable {α : Type}

/-- What the vault holds. -/
def stored (w : Concourse) : Table ObjectId Anchor := w.realm.shared.stored

/-- A desk in this realm. -/
def desk (w : Concourse) (draft : Draft) : Desk Vault := ⟨draft, w.realm.shared⟩

/-- The concourse when a session is left with the draft of a desk. -/
def after (w : Concourse) (name : String) (root : RootId) (d : Desk Vault) : Concourse :=
  ⟨{ w.realm with shared := d.shared }, w.sessions.insert name ⟨root, d.draft⟩⟩

/-- Work in a session. What it did to the draft stays even if it failed. -/
def inSession (w : Concourse) (name : String) (job : Session → Work Vault α) : Concourse :=
  match w.sessions.get? name with
  | none => w
  | some s =>
    let (_, draft, realm) := w.realm.work s.draft (job s)
    ⟨realm, w.sessions.insert name { s with draft := draft }⟩

/-- The concourse after an act. -/
def step (w : Concourse) : Act → Concourse
  | .createRoot tenant =>
    match Realm.createRoot tenant w.realm with
    | .ok _ realm => { w with realm := realm }
    | .error _ realm => { w with realm := realm }
  | .enter name root =>
    match Realm.session root w.realm with
    | .ok s realm => ⟨realm, w.sessions.insert name s⟩
    | .error _ realm => { w with realm := realm }
  | .perform name op => w.inSession name fun s => op.run (w.realm.actor s.root)
  | .commit name => w.inSession name fun s => Desk.conclude s.root
  | .rollback name => w.inSession name fun _ => Desk.onDraft Draft.rollback
  | .evict name => w.inSession name fun _ => Desk.onDraft Draft.evictVolatile
  | .leave name => { w with sessions := w.sessions.erase name }
  | .wait millis => { w with realm := { w.realm with shared := w.realm.shared.sleep millis } }

/-- The concourse after a list of acts. -/
def play (w : Concourse) (acts : List Act) : Concourse := acts.foldl step w

/-- The desk at which an act commits, just before it does so. -/
def brings (w : Concourse) : Act → Option (Desk Vault)
  | .createRoot tenant =>
    match Actor.insertRoot (RootId.ofTenant tenant) (w.desk Draft.empty) with
    | .ok true d => some d
    | _ => none
  | .commit name =>
    match w.sessions.get? name with
    | none => none
    | some s =>
      match Desk.evictUnreachable s.root (w.desk s.draft) with
      | .ok _ d => some d
      | .error _ _ => none
  | _ => none

/-- The batch that an act gets into the vault. -/
def sends (w : Concourse) (act : Act) : Option Batch := (w.brings act).bind Desk.sent

/-- All batches that acts get into the vault, in their order. -/
def log (w : Concourse) : List Act → List Batch
  | [] => []
  | act :: acts => (w.sends act).toList ++ (w.step act).log acts

/-! ## Where changes started -/

/-- What a session sees of an object. -/
def look (w : Concourse) (name : String) (id : ObjectId) : Option Anchor :=
  (w.sessions.get? name).bind fun s => (w.desk s.draft).look id

/-- Whether a session has changed an object since its last commit. -/
def awaits (w : Concourse) (name : String) (id : ObjectId) : Bool :=
  (w.sessions.get? name).any fun s => s.draft.awaits id

/-- What a session's change to an object started from, or would if it changed it
now; `origin` says so for the changes it has made already. -/
def recollect (w : Concourse) (origin : String → ObjectId → Option Anchor) (name : String)
    (id : ObjectId) : Option Anchor :=
  if w.awaits name id then origin name id else w.look name id

/-- What the changes that sessions have made in the course of some acts started
from. -/
def origins (w : Concourse) (origin : String → ObjectId → Option Anchor) :
    List Act → String → ObjectId → Option Anchor
  | [] => origin
  | act :: acts => (w.step act).origins (w.recollect origin) acts

end Concourse

/-! ## Order -/

/-- The setting of a request with a given draft. -/
def Draft.setting (d : Draft) (past : Anchor → Prop) (stored : Table ObjectId Anchor)
    (reserved : ObjectId → Prop) : Setting :=
  ⟨past, stored, reserved, d.held stored⟩

/-- A draft between operations, whatever others do. -/
structure Draft.Orderly (past : Anchor → Prop) (stored : Table ObjectId Anchor) (d : Draft) :
    Prop where
  dated : Dated (d.setting past stored fun _ => False) d
  wired : Wired (d.setting past stored fun _ => False) (fun _ => False) (fun _ => False) d

/-- A draft in which an object is new. -/
def Draft.Bears (d : Draft) (id : ObjectId) : Prop := ∃ a, d.copy? id = some a ∧ a.version = 0

/-- A session in which an object is new. -/
def Concourse.Bears (w : Concourse) (name : String) (id : ObjectId) : Prop :=
  ∃ s, w.sessions.get? name = some s ∧ s.draft.Bears id

/-- A concourse between two acts. The vault is whole and its anchors are the
newest of the `past`; every session's draft is in order by itself, and no two of
them have a new object in common. The objects in `roots` are the roots of
tenants: once they are there they stay. The mint has `n` more identities, and no
version runs out in `m` more commits. -/
structure Orderly (roots : ObjectId → Prop) (n m : Nat) (past : Anchor → Prop) (w : Concourse) :
    Prop where
  agreed : w.realm.shared.Agreed
  chronicle : Chronicle past w.stored
  lineage : Lineage ⟨past, w.stored, fun _ => False, fun _ => 0⟩
  whole : Whole w.stored
  drafts : ∀ {name s}, w.sessions.get? name = some s → s.draft.Orderly past w.stored
  apart : ∀ {name name' id}, w.Bears name id → w.Bears name' id → name = name'
  unrooted : ∀ {name id}, w.Bears name id → ¬ roots id
  nodes : ∀ {id}, roots id → ∃ n, id = .node n
  rooted : ∀ {p}, past p → roots p.id → p.type = rootType ∧ ∃ a, w.stored.get? p.id = some a
  supply : w.realm.shared.mint.Ample n fun id =>
    (∃ p, past p ∧ p.id = id) ∨ (∃ name, w.Bears name id) ∨ roots id
  room : ∀ {v : UInt64}, (v = 0 ∨ ∃ p, past p ∧ p.version = v) → v.toNat + m + 1 < UInt64.size

end Wayfarer
