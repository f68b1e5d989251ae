import Wayfarer.Proofs.Desk
import Wayfarer.Graph.Op
import Wayfarer.Reclaim

/-!
# Reading

A condition on desks that loading an object keeps is kept by everything that
does nothing but read: all look-ups of an actor, and the search for a root
(`Desk.Browses`).

`Desk.Reads` is such work: over whatever tier, it leaves copies of what the tier
holds and changes nothing else.
-/

namespace Wayfarer

variable {σ : Type} [Durable σ]

/-! ## What reading keeps -/

/-- Loading an object keeps a condition. -/
def Desk.Browses (I : Desk σ → Prop) : Prop := ∀ id, Work.Keeps I (Desk.load id)

namespace Desk.Browses

variable {I : Desk σ → Prop}

theorem loadNode (h : Browses I) (m : NodeId) : Work.Keeps I (Desk.loadNode m) :=
  .bind (h _) fun _ => .pure _

theorem loadEdge (h : Browses I) (e : EdgeId) : Work.Keeps I (Desk.loadEdge e) :=
  .bind (h _) fun _ => .pure _

theorem check (h : Browses I) (actor : Actor) (id : ObjectId) (level : Level) :
    Work.Keeps I (actor.check id level) := by
  refine .bind (h id) fun found => ?_
  cases found with
  | none => exact .throw _
  | some a =>
    simp only
    split
    · exact .pure _
    · exact .throw _

omit [Durable σ] in
theorem part {α : Type} (id : ObjectId) (found : Option α) :
    Work.Keeps I (Actor.part (σ := σ) id found) := by
  cases found with
  | none => exact .throw _
  | some a => exact .pure _

omit [Durable σ] in
theorem resolve (actor : Actor) (kind : Kind) (name : String) :
    Work.Keeps I (actor.resolve (σ := σ) kind name) := by
  unfold Actor.resolve
  split
  · exact .pure _
  · exact .throw _

omit [Durable σ] in
theorem fillFields (actor : Actor) (type : TypeId) (given : Fields) :
    Work.Keeps I (actor.fillFields (σ := σ) type given) := by
  unfold Actor.fillFields
  split
  · exact .pure _
  · exact .throw _

theorem readable (h : Browses I) (actor : Actor) (id : ObjectId) :
    Work.Keeps I (actor.readable id) :=
  .bind (h id) fun _ => .pure _

theorem readableType (h : Browses I) (actor : Actor) (id : ObjectId) :
    Work.Keeps I (actor.readableType id) :=
  .bind (h.readable actor id) fun _ => .pure _

theorem node (h : Browses I) (actor : Actor) (id : NodeId) : Work.Keeps I (actor.node id) :=
  .bind (h.check actor _ _) fun _ => part _ _

theorem neighborAt (h : Browses I) (actor : Actor) (q : NeighborQuery) (side : Direction)
    (e : EdgeRecord) : Work.Keeps I (actor.neighborAt q side e) := by
  unfold Actor.neighborAt
  simp only
  split
  · exact .pure _
  · refine .bind (h.readableType actor _) fun found => ?_
    cases found with
    | none => exact .pure _
    | some type => exact .pure _

theorem matchingFrom (h : Browses I) (actor : Actor) (q : NeighborQuery) (pairs : OrdSet EdgeId)
    (edges : List (EdgeId × Direction)) : Work.Keeps I (actor.matchingFrom q pairs edges) := by
  induction edges generalizing pairs with
  | nil => exact .pure _
  | cons head rest ih =>
    obtain ⟨edge, side⟩ := head
    refine .bind (h.readable actor edge) fun found => ?_
    split
    · exact ih pairs
    · split
      · exact ih pairs
      · refine .bind (h.neighborAt actor q side _) fun neighbor => ?_
        cases neighbor with
        | none => exact ih _
        | some neighbor => exact .bind (ih _) fun _ => .pure _

theorem matching (h : Browses I) (actor : Actor) (m : NodeId) (q : NeighborQuery) :
    Work.Keeps I (actor.matching m q) :=
  .bind (h.node actor m) fun _ => h.matchingFrom actor q _ _

theorem neighbors (h : Browses I) (actor : Actor) (m : NodeId) (q : NeighborQuery) :
    Work.Keeps I (actor.neighbors m q) :=
  .bind (h.matching actor m q) fun _ => .pure _

theorem spread (h : Browses I) (actor : Actor) (fuel : Nat) (seen : OrdSet NodeId)
    (waiting : List NodeId) : Work.Keeps I (actor.spread fuel seen waiting) := by
  induction fuel generalizing seen waiting with
  | zero =>
    cases waiting with
    | nil => exact .pure _
    | cons m rest => exact .throw _
  | succ fuel ih =>
    cases waiting with
    | nil => exact .pure _
    | cons m rest => exact .bind (h.neighbors actor m _) fun next => ih _ _

omit [Durable σ] in
theorem get : Work.Keeps I (get : Work σ (Desk σ)) := fun _ h => h

theorem reachable (h : Browses I) (actor : Actor) (m : NodeId) :
    Work.Keeps I (actor.reachable m) :=
  .bind (h.check actor _ _) fun _ => .bind get fun _ => .bind (h.spread actor _ _ _)
    fun _ => .pure _

/-- Every operation that only reads. -/
theorem run (h : Browses I) {op : Op} (hop : op.isRead = true) (actor : Actor) :
    Work.Keeps I (op.run actor) := by
  cases op with
  | anchor id => exact h.check actor id _
  | node m => exact h.node actor m
  | edge e => exact .bind (h.check actor _ _) fun _ => part _ _
  | get id field => exact .bind (h.check actor id _) fun _ => .pure _
  | typeOf id => exact .bind (h.check actor id _) fun _ => .pure _
  | readableType id => exact h.readableType actor id
  | neighbors m q => exact h.neighbors actor m q
  | edges m q => exact .bind (h.matching actor m q) fun _ => .pure _
  | reachable m => exact h.reachable actor m
  | _ => cases hop

theorem twinOf (h : Browses I) (e : EdgeId) : Work.Keeps I (Actor.twinOf e) :=
  .tryCatch (.bind (h.loadEdge e) fun _ => .pure _) fun _ => .pure _

theorem doomed (h : Browses I) (r : NodeRecord) : Work.Keeps I (Actor.doomed r) :=
  .foldlM fun _ e => .bind (h.twinOf e) fun _ => .pure _

/-! ### Looking for a root -/

theorem scan (h : Browses I) (dead : OrdSet NodeId) (reach : Reclaim.Reach) (path : List NodeId)
    (edges : List EdgeId) (search : Reclaim.Search) :
    Work.Keeps I (Reclaim.scan dead reach path edges search) := by
  induction edges generalizing search with
  | nil => exact .pure _
  | cons edge rest ih =>
    refine .bind (h.loadEdge edge) fun found => ?_
    cases found with
    | none => exact ih search
    | some e =>
      simp only
      split
      · exact ih search
      · refine .bind (h _) fun found => ?_
        cases found with
        | none => exact ih _
        | some a =>
          simp only
          split
          · exact .pure _
          · exact ih _

theorem explore (h : Browses I) (dead : OrdSet NodeId) (reach : Reclaim.Reach) (fuel : Nat)
    (search : Reclaim.Search) : Work.Keeps I (Reclaim.explore dead reach fuel search) := by
  induction fuel generalizing search with
  | zero => exact .throw _
  | succ fuel ih =>
    unfold Reclaim.explore
    split
    · exact .pure _
    · exact ih _
    · refine .bind (h.loadNode _) fun found => .bind (h.scan dead reach _ _ _) fun next => ?_
      cases next with
      | inl path => exact .pure _
      | inr search => exact ih search

theorem anchored (h : Browses I) (node : NodeId) (dead : OrdSet NodeId) (reach : Reclaim.Reach) :
    Work.Keeps I (Reclaim.anchored node dead reach) := by
  unfold Reclaim.anchored
  split
  · exact .pure _
  · split
    · exact .pure _
    · refine .bind get fun d => .bind (h.explore dead reach _ _) fun found => ?_
      cases found with
      | inl path => exact .pure _
      | inr seen => exact .pure _

theorem children (h : Browses I) (node : NodeId) : Work.Keeps I (Reclaim.children node) := by
  refine .bind (h.loadNode node) fun found => ?_
  cases found with
  | none => exact .pure _
  | some n => exact .bind (.mapM fun e => h.loadEdge e) fun _ => .pure _

end Desk.Browses

/-! ## Work that only reads -/

/-- Work that does nothing but read. -/
def Desk.Reads {α : Type} (w : Work σ α) : Prop := ∀ (t : Tier σ) d, Work.Keeps (Fetched t d) w

namespace Desk.Reads

theorem fetched {α : Type} {w : Work σ α} {t : Tier σ} {d : Desk σ} (h : Reads w) (hd : d.Over t) :
    Work.Ends w d (fun _ => Fetched t d) fun _ => Fetched t d :=
  h t d d (.refl hd)

theorem load (id : ObjectId) : Reads (load (σ := σ) id) := fun _ _ _ h =>
  (load_ends h.above id).mono (fun _ _ h' => h.trans h'.2.fetched) fun _ _ h' => h'.elim

theorem pure {α : Type} (a : α) : Reads (pure a : Work σ α) := fun _ _ => .pure a

theorem throw {α : Type} (e : Error) : Reads (throw e : Work σ α) := fun _ _ => .throw e

theorem bind {α β : Type} {w : Work σ α} {f : α → Work σ β} (hw : Reads w)
    (hf : ∀ a, Reads (f a)) : Reads (w >>= f) := fun t d => .bind (hw t d) fun a => hf a t d

/-- Having read nothing but what a tier holds is a condition that loading
keeps. -/
theorem browses (t : Tier σ) (d : Desk σ) : Browses (Fetched t d) := fun id => load id t d

theorem check (actor : Actor) (id : ObjectId) (level : Level) :
    Reads (actor.check (σ := σ) id level) := fun t d => (browses t d).check actor id level

theorem part {α : Type} (id : ObjectId) (found : Option α) :
    Reads (Actor.part (σ := σ) id found) := fun _ _ => Browses.part id found

theorem resolve (actor : Actor) (kind : Kind) (name : String) :
    Reads (actor.resolve (σ := σ) kind name) := fun _ _ => Browses.resolve actor kind name

theorem fillFields (actor : Actor) (type : TypeId) (given : Fields) :
    Reads (actor.fillFields (σ := σ) type given) := fun _ _ => Browses.fillFields actor type given

theorem readableType (actor : Actor) (id : ObjectId) :
    Reads (actor.readableType (σ := σ) id) := fun t d => (browses t d).readableType actor id

theorem run {op : Op} (hop : op.isRead = true) (actor : Actor) :
    Reads (op.run (σ := σ) actor) := fun t d => (browses t d).run hop actor

end Desk.Reads

end Wayfarer
